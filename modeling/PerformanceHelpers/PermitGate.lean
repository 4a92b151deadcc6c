import PerformanceHelpers.Options
import PerformanceHelpers.Run

/- `PowerPermitGate` (`src/helpers/powerPermitGate.js`): weighted permits and a
   FIFO queue of waiters.

   The heap is explicit. A waiter's `entry` object outlives its place in the
   queue (its abort listener keeps it), so the queue holds references into
   `entries`, and a release callback is a reference into `leases`. Signals are
   numbered; `aborted` is the state of the caller's signals.

   What is proved:
     1. `gate_balance` — without `reset`, every permit is either available or
        held by a lease that has not been released.
     2. `permits_conserved` — so no more than the capacity is ever out, and a
        release callback works once. `initialTokens` below the capacity leaves
        permits that nobody holds (`initialTokens_unbalanced`).
     3. `release_headWaits_iff`, `abort_headWaits_iff` — one release, or one
        abort, keeps "the first live waiter does not fit in the free permits"
        exactly when it strands nobody (`Strands`, `Uncovers`).
     4. `headWaits_iff_no_strand` — over a whole run, the gate never leaves a
        grantable waiter asleep exactly when no release strands one and no
        abort uncovers one. `release` hands out only the permits being released
        (`_serveWaiters(wanted, false)`), never those already free, so a waiter
        heavier than each single release is not served by their sum
        (`partial_releases_strand`). -/
namespace PerformanceHelpers.PermitGate
open Function (update update_self update_of_ne)

/-- A queued waiter (`entry` in `acquire`). `onAbort` says whether its abort
listener is attached. -/
structure Entry where
  weight : ℤ
  signal : Option ℕ
  onAbort : Bool
  cancelled : Bool
  settled : Bool

/-- A release callback: the units it returns, and its `released` flag. -/
structure Lease where
  weight : ℤ
  released : Bool

structure Gate where
  className : String
  capacity : ℤ
  /-- `none` is `Infinity`. -/
  queueCapacity : Option ℤ
  available : ℤ
  held : ℤ
  waiters : List ℕ
  cancelledWaiters : ℤ
  entries : ℕ → Entry
  nextEntry : ℕ
  leases : ℕ → Lease
  nextLease : ℕ
  aborted : ℕ → Bool

/-- The constructor's options; `limitName` and `className` are the wrapper's
vocabulary for its messages. -/
structure Options where
  capacity : Option ℤ := none
  queueCapacity : Option ℤ := none
  initialTokens : Option ℤ := none
  className : String := "PowerPermitGate"
  limitName : String := "capacity"

/-- The constructor. `queueCapacity` and `initialTokens` are absent or validated;
`initialTokens` is clamped to the capacity. -/
def new (o : Options) : Except String Gate := do
  let capacityName := if o.limitName = "" then "capacity" else o.limitName
  let capacity ← assertLimitRequired o.capacity capacityName o.className 1 1
  let queueCapacity ← optionalLimit o.queueCapacity "queueCapacity" o.className
  let initialTokens ← optionalLimit o.initialTokens "initialTokens" o.className
  pure
    { className := o.className, capacity, queueCapacity
      available := initialTokens.elim capacity (min capacity)
      held := 0, waiters := [], cancelledWaiters := 0
      entries := fun _ => ⟨1, none, false, false, false⟩, nextEntry := 0
      leases := fun _ => ⟨1, true⟩, nextLease := 0, aborted := fun _ => false }

def Gate.pending (g : Gate) : ℤ := max 0 (g.waiters.length - g.cancelledWaiters)

def Gate.isFull (g : Gate) : Bool :=
  match g.queueCapacity with
  | none => false
  | some q => decide (q ≤ g.pending)

/-- How a call answers: a release callback, a place in the queue, a refusal. -/
inductive Outcome where
  | granted (lease : ℕ)
  | queued (entry : ℕ)
  | refused (error : String)
  | nothing
  deriving DecidableEq, Repr

/-- `_makeRelease`: a fresh release callback for `weight` units. -/
def makeRelease (g : Gate) (weight : ℤ) : Gate :=
  { g with
    leases := Function.update g.leases g.nextLease ⟨weight, false⟩
    nextLease := g.nextLease + 1 }

/-- `_grant`: a permit that was already available is taken now. -/
def grant (g : Gate) (weight : ℤ) : Gate :=
  makeRelease { g with available := g.available - weight, held := g.held + weight } weight

/-- `_grantTo`: a waiter is served. A transfer (`fromAvailable = false`) leaves
both counters alone: the releasing caller's permit becomes the waiter's. -/
def grantTo (g : Gate) (entry : ℕ) (fromAvailable : Bool) : Gate :=
  let w := (g.entries entry).weight
  let g := if fromAvailable then { g with available := g.available - w, held := g.held + w } else g
  makeRelease g w

/-- `detach`: drop an entry's abort listener. -/
def detach (g : Gate) (entry : ℕ) : Gate :=
  { g with
    entries := Function.update g.entries entry { g.entries entry with onAbort := false } }

/-- Mark the head settled, shift it and grant it (one turn of `_serveWaiters`). -/
def serveHead (g : Gate) (entry : ℕ) (rest : List ℕ) (fromAvailable : Bool) : Gate :=
  let g := { g with
    entries := Function.update g.entries entry { g.entries entry with settled := true }
    waiters := rest }
  grantTo (detach g entry) entry fromAvailable

/-- The loop of `_serveWaiters` over the queue `ws`, with `served` units handed
out so far. A cancelled head is compacted out; a head that does not fit in what
is left of `permits` stops the loop, and so does running out. -/
def serveLoop (permits : ℤ) (fromAvailable : Bool) : Gate → ℤ → List ℕ → Gate × ℤ
  | g, served, [] => (g, served)
  | g, served, i :: rest =>
    if served < permits then
      if (g.entries i).cancelled then
        serveLoop permits fromAvailable
          { g with cancelledWaiters := max 0 (g.cancelledWaiters - 1), waiters := rest } served rest
      else if permits - served < (g.entries i).weight then (g, served)
      else
        serveLoop permits fromAvailable (serveHead g i rest fromAvailable)
          (served + (g.entries i).weight) rest
    else (g, served)

/-- `_serveWaiters`: hand `permits` units to the queue, in order. Returns the
units served. -/
def serveWaiters (g : Gate) (permits : ℤ) (fromAvailable : Bool) : Gate × ℤ :=
  serveLoop permits fromAvailable g 0 g.waiters

/-- `release(count)`: hand `count` units straight to the queue and return what is
left over to the pool. Returns the permits that came back. -/
def release (g : Gate) (count : ℤ) : Gate × ℤ :=
  let wanted := max 0 (if count = 0 then 1 else count)
  let (g', served) := serveWaiters g wanted false
  let freed := wanted - served
  let available := if 0 < freed then min g'.capacity (g'.available + freed) else g'.available
  ({ g' with available, held := max 0 (g'.held - freed) }, available - g.available)

/-- Calling a release callback: the first call releases its weight. -/
def callRelease (g : Gate) (lease : ℕ) : Gate :=
  if (g.leases lease).released then g
  else
    (release { g with
      leases := Function.update g.leases lease { g.leases lease with released := true } }
      (g.leases lease).weight).1

/-- The entry `acquire` queues. -/
def enqueue (g : Gate) (weight : ℤ) (signal : Option ℕ) : Gate :=
  { g with
    entries := Function.update g.entries g.nextEntry ⟨weight, signal, signal.isSome, false, false⟩
    waiters := g.waiters ++ [g.nextEntry]
    nextEntry := g.nextEntry + 1 }

/-- `acquire({ weight, signal })`. -/
def acquire (g : Gate) (weight : Option ℤ) (signal : Option ℕ) : Gate × Outcome :=
  match assertLimitRequired weight "weight" g.className 1 1 with
  | .error e => (g, .refused e)
  | .ok weight =>
    if g.capacity < weight then
      (g, .refused (s!"{g.className}: `weight` ({weight}) exceeds `capacity` ({g.capacity}). " ++
        "A waiter heavier than the pool can never be granted."))
    else if signal.any g.aborted then (g, .refused "AbortError")
    else if weight ≤ g.available then (grant g weight, .granted g.nextLease)
    else if g.isFull then (g, .refused s!"{g.className} queue is full")
    else (enqueue g weight signal, .queued g.nextEntry)

/-- `tryAcquire(weight)`: `null` when the units are not free. -/
def tryAcquire (g : Gate) (weight : Option ℤ) : Gate × Outcome :=
  match assertLimitRequired weight "weight" g.className 1 1 with
  | .error e => (g, .refused e)
  | .ok weight =>
    if weight ≤ g.available then (grant g weight, .granted g.nextLease) else (g, .nothing)

def onAbort (g : Gate) (entry : ℕ) : Gate :=
  if (g.entries entry).cancelled || (g.entries entry).settled then g
  else
    detach { g with
      entries := Function.update g.entries entry { g.entries entry with cancelled := true }
      cancelledWaiters := g.cancelledWaiters + 1 } entry

/-- The entries whose listener is attached to `signal`, in registration order. -/
def listeners (g : Gate) (signal : ℕ) : List ℕ :=
  (List.range g.nextEntry).filter
    fun i => (g.entries i).onAbort && (g.entries i).signal == some signal

/-- A caller's signal aborts: its listeners run in order, once. -/
def abort (g : Gate) (signal : ℕ) : Gate :=
  if g.aborted signal then g
  else
    (listeners g signal).foldl onAbort { g with aborted := Function.update g.aborted signal true }

/-- `reset({ available })`: reject every waiter and restore the pool, up to what
the outstanding holders leave. -/
def reset (g : Gate) (available : Option ℤ) : Gate :=
  let wanted := min g.capacity (max 0 (available.getD g.capacity))
  { g with
    waiters := [], cancelledWaiters := 0
    available := max 0 (min wanted (g.capacity - g.held)) }

/-- The calls a run is made of, `reset` left out. -/
inductive Event where
  | acquire (weight : Option ℤ) (signal : Option ℕ)
  | tryAcquire (weight : Option ℤ)
  | callRelease (lease : ℕ)
  | abort (signal : ℕ)
  deriving DecidableEq, Repr

def step (g : Gate) : Event → Gate
  | .acquire w s => (acquire g w s).1
  | .tryAcquire w => (tryAcquire g w).1
  | .callRelease i => callRelease g i
  | .abort s => abort g s

/-! ## What one call does to the counters and the queue -/

/-- The weights of the entries of `ws` that are not cancelled, in order. -/
def weightsOf (entries : ℕ → Entry) (ws : List ℕ) : List ℤ :=
  (ws.filter fun i => !(entries i).cancelled).map fun i => (entries i).weight

/-- The weights of the live waiters, in queue order. -/
def liveWeights (g : Gate) : List ℤ := weightsOf g.entries g.waiters

/-- The units a lease still holds. -/
def Lease.units (l : Lease) : ℤ := if l.released then 0 else l.weight

/-- The units out on the first `n` leases. -/
def unitsOf (leases : ℕ → Lease) (n : ℕ) : ℤ := ∑ i ∈ Finset.range n, (leases i).units

/-- The units out on leases that have not been released. -/
def outstanding (g : Gate) : ℤ := unitsOf g.leases g.nextLease

/-- Every release callback handed out has been called. -/
def AllReleased (g : Gate) : Prop := ∀ i < g.nextLease, (g.leases i).released = true

/-- What every call keeps: the capacity, and the `tokens` permits that were there
to begin with. -/
structure Inv (capacity tokens : ℤ) (g : Gate) : Prop where
  capacity_eq : g.capacity = capacity
  tokens_le : tokens ≤ capacity
  available_nonneg : 0 ≤ g.available
  balance : g.available + g.held = tokens
  held_eq : g.held = outstanding g
  lease_pos : ∀ i, (g.leases i).released = false → i < g.nextLease ∧ 1 ≤ (g.leases i).weight
  waiter_fits : ∀ i ∈ g.waiters, 1 ≤ (g.entries i).weight ∧ (g.entries i).weight ≤ g.capacity
  waiter_lt : ∀ i ∈ g.waiters, i < g.nextEntry
  waiter_nodup : g.waiters.Nodup
  waiter_unsettled : ∀ i ∈ g.waiters, (g.entries i).settled = false
  listening : ∀ i ∈ g.waiters, (g.entries i).cancelled = false →
    (g.entries i).onAbort = (g.entries i).signal.isSome

theorem unitsOf_fresh (leases : ℕ → Lease) (n : ℕ) (w : ℤ) :
    unitsOf (update leases n ⟨w, false⟩) (n + 1) = unitsOf leases n + w := by
  unfold unitsOf
  rw [Finset.sum_range_succ, update_self]
  congr 1
  refine Finset.sum_congr rfl fun i hi => ?_
  rw [update_of_ne (Finset.mem_range.mp hi).ne]

theorem unitsOf_mark {leases : ℕ → Lease} {n i : ℕ} (hi : i < n)
    (hr : (leases i).released = false) :
    unitsOf (update leases i { leases i with released := true }) n =
      unitsOf leases n - (leases i).weight := by
  have hmem := Finset.mem_range.mpr hi
  unfold unitsOf
  rw [← Finset.add_sum_erase _ _ hmem, ← Finset.add_sum_erase (Finset.range n) _ hmem]
  have hrest : ∀ j ∈ (Finset.range n).erase i,
      (update leases i { leases i with released := true } j).units =
        (leases j).units :=
    fun j hj => by rw [update_of_ne (Finset.ne_of_mem_erase hj)]
  rw [Finset.sum_congr rfl hrest]
  simp [Lease.units, hr]

theorem outstanding_makeRelease (g : Gate) (w : ℤ) :
    outstanding (makeRelease g w) = outstanding g + w := unitsOf_fresh _ _ _

/-! ## `_serveWaiters`: the longest prefix of the live waiters that fits -/

/-- Two splits of one list of positive weights at the same point. -/
theorem split_unique {w h h' : ℤ} : ∀ {pre pre' post post' : List ℤ},
    (∀ x ∈ pre ++ h :: post, 1 ≤ x) → pre ++ h :: post = pre' ++ h' :: post' →
    pre.sum ≤ w → w < pre.sum + h → pre'.sum ≤ w → w < pre'.sum + h' → pre = pre' ∧ h = h' := by
  intro pre
  induction pre generalizing w with
  | nil =>
    intro pre' post post' hpos he h1 h2 h3 h4
    cases pre' with
    | nil => exact ⟨rfl, (List.cons.inj he).1⟩
    | cons x xs =>
      obtain ⟨rfl, rfl⟩ := List.cons.inj he
      have hxs : 0 ≤ xs.sum := List.sum_nonneg fun y hy => by
        have := hpos y (by simp [hy])
        omega
      simp only [List.sum_nil, List.sum_cons] at h2 h3
      omega
  | cons x xs ih =>
    intro pre' post post' hpos he h1 h2 h3 h4
    cases pre' with
    | nil =>
      obtain ⟨rfl, rfl⟩ := List.cons.inj he
      have hxs : 0 ≤ xs.sum := List.sum_nonneg fun y hy => by
        have := hpos y (by simp [hy])
        omega
      simp only [List.sum_nil, List.sum_cons] at h1 h4
      omega
    | cons y ys =>
      obtain ⟨rfl, he'⟩ := List.cons.inj he
      simp only [List.sum_cons] at h1 h2 h3 h4
      obtain ⟨rfl, rfl⟩ := ih (w := w - x) (fun z hz => hpos z (by simp at hz ⊢; tauto)) he'
        (by omega) (by omega) (by omega) (by omega)
      exact ⟨rfl, rfl⟩

theorem weightsOf_cons (entries : ℕ → Entry) (i : ℕ) (ws : List ℕ) :
    weightsOf entries (i :: ws) =
      if (entries i).cancelled then weightsOf entries ws
      else (entries i).weight :: weightsOf entries ws := by
  cases hc : (entries i).cancelled <;> simp [weightsOf, hc]

theorem weightsOf_congr {e e' : ℕ → Entry} {ws : List ℕ} (h : ∀ i ∈ ws, e i = e' i) :
    weightsOf e ws = weightsOf e' ws := by
  induction ws with
  | nil => rfl
  | cons i ws ih =>
    rw [weightsOf_cons, weightsOf_cons, h i (by simp), ih fun j hj => h j (by simp [hj])]

theorem mem_weightsOf {e : ℕ → Entry} {ws : List ℕ} {w : ℤ} (h : w ∈ weightsOf e ws) :
    ∃ i ∈ ws, (e i).cancelled = false ∧ (e i).weight = w := by
  obtain ⟨i, hi, rfl⟩ := List.mem_map.mp h
  rw [List.mem_filter] at hi
  exact ⟨i, hi.1, by simpa using hi.2, rfl⟩

/-- What serving the queue with `permits` units leaves, from a gate that has
already handed out `served` of them: a prefix `pre` of the live waiters was
served, and the one behind it does not fit in what is left. -/
structure Served (permits : ℤ) (g : Gate) (served : ℤ) (g' : Gate) (served' : ℤ)
    (pre : List ℤ) : Prop where
  live : liveWeights g = pre ++ liveWeights g'
  total : served' = served + pre.sum
  le : served' ≤ permits
  blocked : ∀ h ∈ (liveWeights g').head?, permits < served' + h
  outstanding : outstanding g' = outstanding g + pre.sum
  queue : ∃ gone, g.waiters = gone ++ g'.waiters
  entries : ∀ i ∈ g'.waiters, g'.entries i = g.entries i
  lease_pos : (∀ i, (g.leases i).released = false → i < g.nextLease ∧ 1 ≤ (g.leases i).weight) →
    ∀ i, (g'.leases i).released = false → i < g'.nextLease ∧ 1 ≤ (g'.leases i).weight
  same : g'.available = g.available ∧ g'.held = g.held ∧ g'.capacity = g.capacity ∧
    g'.nextEntry = g.nextEntry

section ServeHead
variable (g : Gate) (i : ℕ) (rest : List ℕ)

theorem serveHead_entries {j : ℕ} (hj : j ≠ i) (b : Bool) :
    (serveHead g i rest b).entries j = g.entries j := by
  cases b <;> simp [serveHead, grantTo, detach, makeRelease, hj]

theorem serveHead_waiters (b : Bool) : (serveHead g i rest b).waiters = rest := by
  cases b <;> rfl

theorem serveHead_leases :
    (serveHead g i rest false).leases =
      update g.leases g.nextLease ⟨(g.entries i).weight, false⟩ := by
  simp [serveHead, grantTo, detach, makeRelease]

theorem outstanding_serveHead :
    outstanding (serveHead g i rest false) = outstanding g + (g.entries i).weight := by
  unfold outstanding
  rw [serveHead_leases]
  exact unitsOf_fresh _ _ _

theorem serveHead_lease_pos (hw : 1 ≤ (g.entries i).weight)
    (hg : ∀ i, (g.leases i).released = false → i < g.nextLease ∧ 1 ≤ (g.leases i).weight) :
    ∀ j, ((serveHead g i rest false).leases j).released = false →
      j < (serveHead g i rest false).nextLease ∧ 1 ≤ ((serveHead g i rest false).leases j).weight := by
  intro j hj
  have hn : (serveHead g i rest false).nextLease = g.nextLease + 1 := rfl
  rw [serveHead_leases] at hj ⊢
  by_cases hjn : j = g.nextLease
  · subst hjn
    rw [update_self, hn]
    exact ⟨Nat.lt_succ_self _, hw⟩
  · rw [update_of_ne hjn] at hj ⊢
    rw [hn]
    exact ⟨Nat.lt_succ_of_lt (hg j hj).1, (hg j hj).2⟩

theorem liveWeights_serveHead (hq : g.waiters = i :: rest) (hn : (i :: rest).Nodup)
    (hc : (g.entries i).cancelled = false) :
    liveWeights g = (g.entries i).weight :: liveWeights (serveHead g i rest false) := by
  unfold liveWeights
  rw [hq, serveHead_waiters, weightsOf_cons, hc]
  simp only [Bool.false_eq_true, if_false]
  congr 1
  refine weightsOf_congr fun j hj => (serveHead_entries g i rest ?_ false).symm
  exact fun h => (List.nodup_cons.mp hn).1 (h ▸ hj)

end ServeHead

theorem Served.trans {permits : ℤ} {g g₁ g' : Gate} {served served₁ served' : ℤ}
    {front pre : List ℤ} (h : Served permits g₁ served₁ g' served' pre)
    (hlive : liveWeights g = front ++ liveWeights g₁) (htotal : served₁ = served + front.sum)
    (hout : PermitGate.outstanding g₁ = PermitGate.outstanding g + front.sum)
    (hqueue : ∃ i, g.waiters = i :: g₁.waiters)
    (hentries : ∀ i ∈ g₁.waiters, g₁.entries i = g.entries i)
    (hlease : (∀ i, (g.leases i).released = false → i < g.nextLease ∧ 1 ≤ (g.leases i).weight) →
      ∀ i, (g₁.leases i).released = false → i < g₁.nextLease ∧ 1 ≤ (g₁.leases i).weight)
    (hsame : g₁.available = g.available ∧ g₁.held = g.held ∧ g₁.capacity = g.capacity ∧
      g₁.nextEntry = g.nextEntry) :
    Served permits g served g' served' (front ++ pre) where
  live := by rw [hlive, h.live, List.append_assoc]
  total := by rw [h.total, htotal, List.sum_append]; omega
  le := h.le
  blocked := h.blocked
  outstanding := by rw [h.outstanding, hout, List.sum_append]; omega
  queue := by
    obtain ⟨i, hi⟩ := hqueue
    obtain ⟨gone, hgone⟩ := h.queue
    exact ⟨i :: gone, by rw [hi, hgone]; rfl⟩
  entries := by
    intro i hi
    obtain ⟨gone, hgone⟩ := h.queue
    rw [h.entries i hi, hentries i (by rw [hgone]; simp [hi])]
  lease_pos := fun hg => h.lease_pos (hlease hg)
  same := by
    obtain ⟨h1, h2, h3, h4⟩ := h.same
    obtain ⟨k1, k2, k3, k4⟩ := hsame
    exact ⟨h1.trans k1, h2.trans k2, h3.trans k3, h4.trans k4⟩

theorem Served.stop {permits : ℤ} {g : Gate} {served : ℤ} (hle : served ≤ permits)
    (hb : ∀ h ∈ (liveWeights g).head?, permits < served + h) :
    Served permits g served g served [] where
  live := rfl
  total := by simp
  le := hle
  blocked := hb
  outstanding := by simp
  queue := ⟨[], rfl⟩
  entries := fun _ _ => rfl
  lease_pos := id
  same := ⟨rfl, rfl, rfl, rfl⟩

theorem serveLoop_served (permits : ℤ) : ∀ (ws : List ℕ) (g : Gate) (served : ℤ),
    g.waiters = ws → ws.Nodup → (∀ i ∈ ws, 1 ≤ (g.entries i).weight) → served ≤ permits →
    ∃ pre, Served permits g served (serveLoop permits false g served ws).1
      (serveLoop permits false g served ws).2 pre := by
  intro ws
  induction ws with
  | nil =>
    intro g served hq _ _ hle
    refine ⟨[], Served.stop hle ?_⟩
    simp [liveWeights, hq, weightsOf]
  | cons i rest ih =>
    intro g served hq hn hpos hle
    have hrest : rest.Nodup := (List.nodup_cons.mp hn).2
    have hi : ∀ j ∈ rest, j ≠ i := fun j hj h => (List.nodup_cons.mp hn).1 (h ▸ hj)
    simp only [serveLoop]
    split
    · rename_i hlt
      split
      · -- a cancelled head is compacted out
        rename_i hc
        obtain ⟨pre, h⟩ := ih
          { g with cancelledWaiters := max 0 (g.cancelledWaiters - 1), waiters := rest } served rfl
          hrest (fun j hj => hpos j (by simp [hj])) hle
        refine ⟨[] ++ pre, h.trans ?_ (by simp) (by simp [outstanding]) ⟨i, hq⟩ (fun _ _ => rfl) id
          ⟨rfl, rfl, rfl, rfl⟩⟩
        simp only [liveWeights, hq, weightsOf_cons, hc, if_true, List.nil_append]
      · rename_i hc
        have hc : (g.entries i).cancelled = false := by simpa using hc
        split
        · -- the head does not fit in what is left
          rename_i hw
          refine ⟨[], Served.stop hle ?_⟩
          intro h hh
          simp only [liveWeights, hq, weightsOf_cons, hc, Bool.false_eq_true, if_false,
            List.head?_cons, Option.mem_def, Option.some.injEq] at hh
          omega
        · rename_i hw
          obtain ⟨pre, h⟩ := ih (serveHead g i rest false) (served + (g.entries i).weight)
            (serveHead_waiters g i rest false) hrest
            (fun j hj => by
              rw [serveHead_entries g i rest (hi j hj)]
              exact hpos j (by simp [hj]))
            (by omega)
          refine ⟨[(g.entries i).weight] ++ pre, h.trans ?_ (by simp) ?_ ⟨i, ?_⟩ ?_ ?_
            ⟨rfl, rfl, rfl, rfl⟩⟩
          · exact liveWeights_serveHead g i rest hq hn hc
          · rw [outstanding_serveHead]; simp
          · rw [serveHead_waiters]; exact hq
          · intro j hj
            exact serveHead_entries g i rest (hi j (by rwa [serveHead_waiters] at hj)) false
          · exact serveHead_lease_pos g i rest (hpos i (by simp))
    · -- every released unit has been handed on
      rename_i hlt
      refine ⟨[], Served.stop hle ?_⟩
      intro h hh
      obtain ⟨j, hj, -, rfl⟩ := mem_weightsOf (List.mem_of_mem_head? hh)
      have := hpos j (hq ▸ hj)
      omega

/-! ## Each call keeps the invariant -/

theorem outstanding_nonneg {g : Gate}
    (h : ∀ i, (g.leases i).released = false → i < g.nextLease ∧ 1 ≤ (g.leases i).weight) :
    0 ≤ outstanding g := by
  unfold outstanding unitsOf
  refine Finset.sum_nonneg fun i _ => ?_
  unfold Lease.units
  split
  · exact le_rfl
  · rename_i hr
    have := (h i (by simpa using hr)).2
    omega

theorem new_inv {o : Options} {g : Gate} (h : new o = .ok g) :
    Inv g.capacity g.available g ∧ (o.initialTokens = none → g.available = g.capacity) ∧
      g.waiters = [] := by
  unfold new at h
  obtain ⟨capacity, hcap, h⟩ := bind_eq_ok.mp h
  obtain ⟨queueCapacity, -, h⟩ := bind_eq_ok.mp h
  obtain ⟨tokens, htok, h⟩ := bind_eq_ok.mp h
  cases h
  have hc : 1 ≤ capacity := assertLimitRequired_ge hcap le_rfl
  obtain ⟨hnone, hnn⟩ := optionalLimit_spec htok
  have ha : 0 ≤ tokens.elim capacity (min capacity) ∧
      tokens.elim capacity (min capacity) ≤ capacity := by
    cases tokens with
    | none => exact ⟨by simp only [Option.elim]; omega, le_rfl⟩
    | some t =>
      have := hnn t rfl
      exact ⟨by simp only [Option.elim]; omega, min_le_left _ _⟩
  refine ⟨⟨rfl, ha.2, ha.1, by simp, by simp [outstanding, unitsOf], by simp, by simp, by simp, by simp,
    by simp, by simp⟩, fun ht => ?_, rfl⟩
  rw [hnone ht]
  rfl

section Keeps
variable {capacity tokens : ℤ} {g : Gate}

theorem Inv.of_grant (h : Inv capacity tokens g) {w : ℤ} (h1 : 1 ≤ w) (hw : w ≤ g.available) :
    Inv capacity tokens (grant g w) where
  capacity_eq := h.capacity_eq
  tokens_le := h.tokens_le
  available_nonneg := by
    show 0 ≤ g.available - w
    omega
  balance := by
    have := h.balance
    show g.available - w + (g.held + w) = tokens
    omega
  held_eq := by
    show g.held + w = _
    rw [h.held_eq]
    exact (outstanding_makeRelease _ w).symm
  lease_pos := by
    intro i hi
    show i < g.nextLease + 1 ∧ 1 ≤ (update g.leases g.nextLease ⟨w, false⟩ i).weight
    have hi : (update g.leases g.nextLease ⟨w, false⟩ i).released = false := hi
    by_cases hin : i = g.nextLease
    · subst hin
      rw [update_self]
      exact ⟨Nat.lt_succ_self _, h1⟩
    · rw [update_of_ne hin] at hi ⊢
      exact ⟨Nat.lt_succ_of_lt (h.lease_pos i hi).1, (h.lease_pos i hi).2⟩
  waiter_fits := h.waiter_fits
  waiter_lt := h.waiter_lt
  waiter_nodup := h.waiter_nodup
  waiter_unsettled := h.waiter_unsettled
  listening := h.listening

theorem Inv.of_enqueue (h : Inv capacity tokens g) {w : ℤ} (h1 : 1 ≤ w) (hw : w ≤ g.capacity)
    (signal : Option ℕ) : Inv capacity tokens (enqueue g w signal) := by
  have hold : ∀ i ∈ g.waiters, (enqueue g w signal).entries i = g.entries i := fun i hi =>
    update_of_ne (h.waiter_lt i hi).ne _ _
  have hnew : (enqueue g w signal).entries g.nextEntry = ⟨w, signal, signal.isSome, false, false⟩ :=
    update_self ..
  have hmem : ∀ i, i ∈ (enqueue g w signal).waiters ↔ i ∈ g.waiters ∨ i = g.nextEntry := by
    intro i
    simp [enqueue]
  refine ⟨h.capacity_eq, h.tokens_le, h.available_nonneg, h.balance, h.held_eq, h.lease_pos, ?_, ?_, ?_, ?_, ?_⟩
  · intro i hi
    rcases (hmem i).mp hi with hi | rfl
    · rw [hold i hi]; exact h.waiter_fits i hi
    · rw [hnew]; exact ⟨h1, hw⟩
  · intro i hi
    show i < g.nextEntry + 1
    rcases (hmem i).mp hi with hi | rfl
    · exact Nat.lt_succ_of_lt (h.waiter_lt i hi)
    · exact Nat.lt_succ_self _
  · refine List.nodup_append.mpr ⟨h.waiter_nodup, List.nodup_singleton _, ?_⟩
    intro i hi j hj
    rw [List.mem_singleton.mp hj]
    exact (h.waiter_lt i hi).ne
  · intro i hi
    rcases (hmem i).mp hi with hi | rfl
    · rw [hold i hi]; exact h.waiter_unsettled i hi
    · rw [hnew]
  · intro i hi hc
    rcases (hmem i).mp hi with hi | rfl
    · rw [hold i hi] at hc ⊢; exact h.listening i hi hc
    · rw [hnew]

theorem release_of_serve {g₁ g' : Gate} {w served : ℤ} (hw : 1 ≤ w)
    (hloop : serveLoop w false g₁ 0 g₁.waiters = (g', served)) :
    (release g₁ w).1 =
      { g' with
        available := if 0 < w - served then min g'.capacity (g'.available + (w - served))
          else g'.available
        held := max 0 (g'.held - (w - served)) } := by
  have hwanted : max 0 (if w = 0 then 1 else w) = w := by
    rw [if_neg (by omega)]
    omega
  simp only [release, serveWaiters, hwanted, hloop]

/-- A first call of a release callback for `w` units: a prefix `pre` of the live
waiters takes its weight over, and the rest comes back to the pool. -/
theorem callRelease_spec (h : Inv capacity tokens g) {i : ℕ} (hr : (g.leases i).released = false) :
    ∃ pre, liveWeights g = pre ++ liveWeights (callRelease g i) ∧
      pre.sum ≤ (g.leases i).weight ∧
      (callRelease g i).available = g.available + ((g.leases i).weight - pre.sum) ∧
      (∀ x ∈ (liveWeights (callRelease g i)).head?, (g.leases i).weight < pre.sum + x) ∧
      Inv capacity tokens (callRelease g i) := by
  obtain ⟨hi, hw⟩ := h.lease_pos i hr
  generalize hwe : (g.leases i).weight = w at hw
  let g₁ : Gate :=
    { g with leases := update g.leases i { g.leases i with released := true } }
  have hlease₁ : ∀ j, (g₁.leases j).released = false →
      j < g₁.nextLease ∧ 1 ≤ (g₁.leases j).weight := by
    intro j hj
    by_cases hji : j = i
    · subst hji
      simp [g₁] at hj
    · simp only [g₁, update_of_ne hji] at hj ⊢
      exact h.lease_pos j hj
  obtain ⟨pre, hs⟩ := serveLoop_served w g.waiters g₁ 0 rfl h.waiter_nodup
    (fun j hj => (h.waiter_fits j hj).1) (by omega)
  generalize hloop : serveLoop w false g₁ 0 g.waiters = r at hs
  obtain ⟨g', served⟩ := r
  have hserved : served = pre.sum := by have := hs.total; omega
  have hle : pre.sum ≤ w := hserved ▸ hs.le
  have hout : outstanding g' = g.held - w + pre.sum := by
    rw [hs.outstanding, h.held_eq, ← hwe]
    congr 1
    exact unitsOf_mark hi hr
  have hnn : 0 ≤ outstanding g' := outstanding_nonneg (hs.lease_pos hlease₁)
  have hbal := h.balance
  have htok := h.tokens_le
  have hcap := h.capacity_eq
  have hav := h.available_nonneg
  obtain ⟨e1, e2, e3, e4⟩ := hs.same
  have hcall : callRelease g i =
      { g' with available := g.available + (w - pre.sum), held := g.held - (w - pre.sum) } := by
    have hrel : callRelease g i = (release g₁ w).1 := by
      rw [callRelease, if_neg (by simp [hr]), hwe]
    rw [hrel, release_of_serve hw hloop, e1, e2, e3, hserved]
    -- the clamps of `release` do not bite
    congr 1
    · show (if 0 < w - pre.sum then _ else _) = _
      split
      · exact min_eq_right (by show g.available + _ ≤ g.capacity; omega)
      · show g.available = _
        omega
    · exact max_eq_right (by show 0 ≤ g.held - _; omega)
  have hq : ∀ j ∈ g'.waiters, j ∈ g.waiters := by
    intro j hj
    obtain ⟨gone, hgone⟩ := hs.queue
    have hgone : g.waiters = gone ++ g'.waiters := hgone
    rw [hgone]; simp [hj]
  have hent : ∀ j ∈ g'.waiters, g'.entries j = g.entries j := hs.entries
  refine ⟨pre, ?_, hle, ?_, ?_, ?_⟩
  · rw [hcall]; exact hs.live
  · rw [hcall]
  · rw [hcall]
    intro x hx
    have := hs.blocked x hx
    omega
  · rw [hcall]
    refine ⟨e3.trans h.capacity_eq, htok, ?_, ?_, ?_, hs.lease_pos hlease₁, ?_, ?_, ?_, ?_, ?_⟩
    · show 0 ≤ g.available + (w - pre.sum)
      omega
    · show g.available + (w - pre.sum) + (g.held - (w - pre.sum)) = tokens
      omega
    · show g.held - (w - pre.sum) = outstanding g'
      omega
    · intro j hj
      show 1 ≤ (g'.entries j).weight ∧ (g'.entries j).weight ≤ g'.capacity
      rw [hent j hj, e3]
      exact h.waiter_fits j (hq j hj)
    · intro j hj
      show j < g'.nextEntry
      rw [e4]
      exact h.waiter_lt j (hq j hj)
    · obtain ⟨gone, hgone⟩ := hs.queue
      have hgone : g.waiters = gone ++ g'.waiters := hgone
      exact (List.nodup_append.mp (hgone ▸ h.waiter_nodup)).2.1
    · intro j hj
      show (g'.entries j).settled = false
      rw [hent j hj]
      exact h.waiter_unsettled j (hq j hj)
    · intro j hj hc
      have hc : (g'.entries j).cancelled = false := hc
      show (g'.entries j).onAbort = (g'.entries j).signal.isSome
      rw [hent j hj] at hc ⊢
      exact h.listening j (hq j hj) hc

/-! ## Aborts -/

/-- What an abort listener does to its own entry. -/
def Entry.cancel (e : Entry) : Entry :=
  if e.cancelled || e.settled then e else { e with cancelled := true, onAbort := false }

theorem Entry.cancel_cancel (e : Entry) : e.cancel.cancel = e.cancel := by
  unfold Entry.cancel
  split <;> simp_all

theorem onAbort_entries (g : Gate) (i : ℕ) :
    (onAbort g i).entries = update g.entries i (g.entries i).cancel := by
  unfold onAbort Entry.cancel
  split
  · exact (Function.update_eq_self i g.entries).symm
  · simp [detach]

theorem foldl_onAbort_entries (l : List ℕ) : ∀ (g : Gate) (i : ℕ),
    (l.foldl onAbort g).entries i = if i ∈ l then (g.entries i).cancel else g.entries i := by
  induction l with
  | nil => intro g i; rfl
  | cons j l ih =>
    intro g i
    rw [List.foldl_cons, ih, onAbort_entries]
    by_cases hij : i = j
    · subst hij
      simp only [update_self, List.mem_cons, true_or, if_true, Entry.cancel_cancel]
      split <;> rfl
    · simp [hij]

theorem foldl_onAbort_same (l : List ℕ) : ∀ (g : Gate), ∃ c,
    l.foldl onAbort g =
      { g with entries := (l.foldl onAbort g).entries, cancelledWaiters := c } := by
  induction l with
  | nil => exact fun g => ⟨g.cancelledWaiters, rfl⟩
  | cons j l ih =>
    intro g
    obtain ⟨c, hc⟩ := ih (onAbort g j)
    refine ⟨c, ?_⟩
    rw [List.foldl_cons]
    conv => lhs; rw [hc]
    unfold onAbort
    split <;> rfl

/-- The entries of `ws` that do not wait on `signal`. -/
def notOn (g : Gate) (signal : ℕ) : List ℕ :=
  g.waiters.filter fun i => (g.entries i).signal != some signal

theorem abort_spec (h : Inv capacity tokens g) {signal : ℕ} (ha : g.aborted signal = false) :
    liveWeights (abort g signal) = weightsOf g.entries (notOn g signal) ∧
      (abort g signal).available = g.available ∧ Inv capacity tokens (abort g signal) := by
  let g₁ : Gate := { g with aborted := update g.aborted signal true }
  have hab : abort g signal = (listeners g signal).foldl onAbort g₁ := by
    rw [abort, if_neg (by simp [ha])]
  obtain ⟨c, hsame⟩ := foldl_onAbort_same (listeners g signal) g₁
  have hent : ∀ i, (abort g signal).entries i =
      if i ∈ listeners g signal then (g.entries i).cancel else g.entries i := by
    intro i
    rw [hab]
    exact foldl_onAbort_entries _ g₁ i
  have hw : (abort g signal).waiters = g.waiters := by rw [hab, hsame]
  -- a queued live entry listens to `signal` exactly when it waits on it
  have hlisten : ∀ i ∈ g.waiters, (g.entries i).cancelled = false →
      (i ∈ listeners g signal ↔ (g.entries i).signal = some signal) := by
    intro i hi hc
    simp only [listeners, List.mem_filter, List.mem_range, h.waiter_lt i hi, true_and,
      h.listening i hi hc, Bool.and_eq_true, beq_iff_eq]
    exact ⟨fun h => h.2, fun h => ⟨by simp [h], h⟩⟩
  have hkeep : ∀ i, ((abort g signal).entries i).weight = (g.entries i).weight ∧
      ((abort g signal).entries i).settled = (g.entries i).settled ∧
      (((abort g signal).entries i).cancelled = false →
        (abort g signal).entries i = g.entries i) := by
    intro i
    rw [hent]
    split
    · unfold Entry.cancel
      split <;> simp
    · simp
  refine ⟨?_, by rw [hab, hsame], ?_⟩
  · unfold liveWeights weightsOf notOn
    rw [hw, List.filter_filter]
    rw [List.map_congr_left (fun i _ => (hkeep i).1)]
    congr 1
    refine List.filter_congr fun i hi => ?_
    rw [hent]
    cases hc : (g.entries i).cancelled with
    | true => split <;> simp [Entry.cancel, hc]
    | false =>
      have hset := h.waiter_unsettled i hi
      by_cases hs : (g.entries i).signal = some signal
      · rw [if_pos ((hlisten i hi hc).mpr hs)]
        simp [Entry.cancel, hc, hset, hs]
      · rw [if_neg (fun hm => hs ((hlisten i hi hc).mp hm))]
        simp [hc, hs]
  · have hq : ∀ i ∈ (abort g signal).waiters, i ∈ g.waiters := fun i hi => hw ▸ hi
    refine ⟨?_, h.tokens_le, ?_, ?_, ?_, ?_, ?_, ?_, ?_, ?_, ?_⟩
    · rw [hab, hsame]; exact h.capacity_eq
    · rw [hab, hsame]; exact h.available_nonneg
    · rw [hab, hsame]; exact h.balance
    · rw [hab, hsame]; exact h.held_eq
    · rw [hab, hsame]; exact h.lease_pos
    · intro i hi
      rw [(hkeep i).1, hab, hsame]
      exact h.waiter_fits i (hq i hi)
    · intro i hi
      rw [hab, hsame]
      exact h.waiter_lt i (hq i hi)
    · rw [hw]; exact h.waiter_nodup
    · intro i hi
      rw [(hkeep i).2.1]
      exact h.waiter_unsettled i (hq i hi)
    · intro i hi hc
      have he := (hkeep i).2.2 hc
      rw [he] at hc ⊢
      exact h.listening i (hq i hi) hc

end Keeps

theorem Inv.of_step {capacity tokens : ℤ} {g : Gate} (h : Inv capacity tokens g) (e : Event) :
    Inv capacity tokens (step g e) := by
  cases e with
  | acquire weight signal =>
    simp only [step, acquire]
    cases hw : assertLimitRequired weight "weight" g.className 1 1 with
    | error e => exact h
    | ok w =>
      have h1 : 1 ≤ w := assertLimitRequired_ge hw le_rfl
      simp only
      split_ifs with hcap hab hav hfull
      · exact h
      · exact h
      · exact h.of_grant h1 hav
      · exact h
      · exact h.of_enqueue h1 (by omega) signal
  | tryAcquire weight =>
    simp only [step, tryAcquire]
    cases hw : assertLimitRequired weight "weight" g.className 1 1 with
    | error e => exact h
    | ok w =>
      simp only
      split_ifs with hav
      · exact h.of_grant (assertLimitRequired_ge hw le_rfl) hav
      · exact h
  | callRelease i =>
    cases hr : (g.leases i).released with
    | true => simpa [step, callRelease, hr] using h
    | false =>
      obtain ⟨-, -, -, -, -, h'⟩ := callRelease_spec h hr
      exact h'
  | abort signal =>
    cases ha : g.aborted signal with
    | true => simpa [step, abort, ha] using h
    | false => exact (abort_spec h ha).2.2

/-- **Balance.** Without `reset`, in every state of a run the available permits
and the units on unreleased leases make up the permits the gate started with. -/
theorem gate_balance {o : Options} {g : Gate} (hg : new o = .ok g) (es : List Event) :
    Always step (fun g' => g'.available + outstanding g' = g.available ∧ 0 ≤ g'.available) g es := by
  refine (always_of_step (P := Inv g.capacity g.available) (fun s e h => h.of_step e) (new_inv hg).1 es).mono fun s h => ?_
  exact ⟨h.held_eq ▸ h.balance, h.available_nonneg⟩

/-! ## Leases are released once -/

/-- The leases of `g` that are released are released in `g'` too. -/
def KeepsReleased (g g' : Gate) : Prop :=
  ∀ i < g.nextLease, (g.leases i).released = true →
    i < g'.nextLease ∧ (g'.leases i).released = true

theorem KeepsReleased.refl (g : Gate) : KeepsReleased g g := fun _ hi hr => ⟨hi, hr⟩

theorem KeepsReleased.trans {g g₁ g' : Gate} (h : KeepsReleased g g₁) (h' : KeepsReleased g₁ g') :
    KeepsReleased g g' := by
  intro i hi hr
  obtain ⟨hi₁, hr₁⟩ := h i hi hr
  exact h' i hi₁ hr₁

theorem keepsReleased_makeRelease (g : Gate) (w : ℤ) : KeepsReleased g (makeRelease g w) := by
  intro i hi hr
  refine ⟨Nat.lt_succ_of_lt hi, ?_⟩
  show (update g.leases g.nextLease ⟨w, false⟩ i).released = true
  rw [update_of_ne hi.ne]
  exact hr

theorem keepsReleased_serveLoop (permits : ℤ) (b : Bool) : ∀ (ws : List ℕ) (g : Gate) (served : ℤ),
    KeepsReleased g (serveLoop permits b g served ws).1 := by
  intro ws
  induction ws with
  | nil => exact fun g served => KeepsReleased.refl g
  | cons i rest ih =>
    intro g served
    simp only [serveLoop]
    split_ifs with hlt hc hw
    · exact ih { g with cancelledWaiters := _, waiters := rest } served
    · exact KeepsReleased.refl g
    · refine KeepsReleased.trans ?_ (ih (serveHead g i rest b) _)
      -- serving the head only adds its own lease
      cases b <;> exact fun j hj hr => keepsReleased_makeRelease g _ j hj hr
    · exact KeepsReleased.refl g

theorem callRelease_released {g : Gate} {i : ℕ} (hi : i < g.nextLease) :
    i < (callRelease g i).nextLease ∧ ((callRelease g i).leases i).released = true := by
  unfold callRelease
  split
  · exact ⟨hi, ‹_›⟩
  · let g₁ : Gate :=
      { g with leases := update g.leases i { g.leases i with released := true } }
    have hr : (g₁.leases i).released = true := by simp [g₁]
    exact keepsReleased_serveLoop _ false g₁.waiters g₁ 0 i hi hr

theorem keepsReleased_callRelease (g : Gate) (i : ℕ) : KeepsReleased g (callRelease g i) := by
  intro j hj hr
  by_cases hji : j = i
  · exact hji ▸ callRelease_released (hji ▸ hj)
  · unfold callRelease
    split
    · exact ⟨hj, hr⟩
    · let g₁ : Gate :=
        { g with leases := update g.leases i { g.leases i with released := true } }
      have hr₁ : (g₁.leases j).released = true := by simp [g₁, hji, hr]
      exact keepsReleased_serveLoop _ false g₁.waiters g₁ 0 j hj hr₁

theorem keepsReleased_step (g : Gate) (e : Event) : KeepsReleased g (step g e) := by
  cases e with
  | acquire weight signal =>
    simp only [step, acquire]
    split
    · exact KeepsReleased.refl g
    · split_ifs
      · exact KeepsReleased.refl g
      · exact KeepsReleased.refl g
      · exact keepsReleased_makeRelease { g with available := _, held := _ } _
      · exact KeepsReleased.refl g
      · exact fun j hj hr => ⟨hj, hr⟩
  | tryAcquire weight =>
    simp only [step, tryAcquire]
    split
    · exact KeepsReleased.refl g
    · split_ifs
      · exact keepsReleased_makeRelease { g with available := _, held := _ } _
      · exact KeepsReleased.refl g
  | callRelease i => exact keepsReleased_callRelease g i
  | abort signal =>
    simp only [step, abort]
    split
    · exact KeepsReleased.refl g
    · obtain ⟨c, hsame⟩ := foldl_onAbort_same (listeners g signal)
        { g with aborted := update g.aborted signal true }
      rw [hsame]
      exact fun j hj hr => ⟨hj, hr⟩

theorem keepsReleased_run (es : List Event) : ∀ g : Gate, KeepsReleased g (run step g es) := by
  induction es with
  | nil => exact KeepsReleased.refl
  | cons e es ih => exact fun g => (keepsReleased_step g e).trans (ih (step g e))

/-- A callback that has been called does nothing when it is called again, whatever
came between the two calls. -/
theorem callRelease_again {g : Gate} {i : ℕ} (hi : i < g.nextLease) (es : List Event) :
    callRelease (run step (callRelease g i) es) i = run step (callRelease g i) es := by
  obtain ⟨hi', hr⟩ := callRelease_released hi
  have hlater := (keepsReleased_run es (callRelease g i) i hi' hr).2
  rw [callRelease, if_pos hlater]

theorem new_available {o : Options} {g : Gate} (h : new o = .ok g) :
    g.capacity = o.capacity.getD 1 ∧
      g.available = o.initialTokens.elim (o.capacity.getD 1) (min (o.capacity.getD 1)) := by
  unfold new at h
  obtain ⟨capacity, hcap, h⟩ := bind_eq_ok.mp h
  obtain ⟨queueCapacity, -, h⟩ := bind_eq_ok.mp h
  obtain ⟨tokens, htok, h⟩ := bind_eq_ok.mp h
  cases h
  rw [← assertLimitRequired_eq hcap, ← optionalLimit_eq htok]
  exact ⟨rfl, rfl⟩

/-- **Conservation.** In every state of a run without `reset`, no permit is
missing and none is minted: the free permits and the units on unreleased
callbacks make up what the gate started with (its capacity, or `initialTokens`
clamped to it), no more than the capacity is out at once, and a callback called a
second time, then or later, changes nothing. -/
theorem permits_conserved {o : Options} {g : Gate} (hg : new o = .ok g) (es : List Event) :
    Always step
      (fun g' => 0 ≤ g'.available ∧
        g'.available + outstanding g' =
          o.initialTokens.elim (o.capacity.getD 1) (min (o.capacity.getD 1)) ∧
        outstanding g' ≤ o.capacity.getD 1 ∧
        ∀ i < g'.nextLease, ∀ later,
          callRelease (run step (callRelease g' i) later) i = run step (callRelease g' i) later)
      g es := by
  obtain ⟨hcapacity, htokens⟩ := new_available hg
  have hle : g.available ≤ g.capacity := (new_inv hg).1.tokens_le
  refine (gate_balance hg es).mono fun g' h => ?_
  obtain ⟨hbalance, hnonneg⟩ := h
  refine ⟨hnonneg, by rw [hbalance, htokens], ?_, fun i hi later => callRelease_again hi later⟩
  omega

/-- Two of three permits are taken, a waiter for two queues, and the holder's
callback is called twice. -/
theorem permits_conserved_transfer : ∃ g, new { capacity := some 3 } = .ok g ∧
    Always step
      (fun g' => 0 ≤ g'.available ∧ g'.available + outstanding g' = 3 ∧ outstanding g' ≤ 3 ∧
        ∀ i < g'.nextLease, ∀ later,
          callRelease (run step (callRelease g' i) later) i = run step (callRelease g' i) later)
      g [.acquire (some 2) none, .acquire (some 2) none, .callRelease 0, .callRelease 0] :=
  ⟨_, rfl, permits_conserved (o := { capacity := some 3 }) rfl _⟩

/-- A gate of two permits that starts with none: its permits are neither free nor
held. -/
theorem initialTokens_unbalanced : ∃ g, new { capacity := some 2, initialTokens := some 0 } = .ok g ∧
    g.capacity = 2 ∧ g.available + outstanding g = 0 :=
  ⟨_, rfl, by decide, by decide⟩

/-! ## When a grantable waiter is left asleep -/

/-- The first live waiter does not fit in the free permits. -/
def HeadWaits (g : Gate) : Prop := ∀ w ∈ (liveWeights g).head?, g.available < w

/-- Releasing `units` strands a waiter: those ahead of it fit in `units`, it does
not fit in what they leave, and it would fit with the permits already free. -/
def Strands (g : Gate) (units : ℤ) : Prop :=
  ∃ pre w post, liveWeights g = pre ++ w :: post ∧ pre.sum ≤ units ∧ units < pre.sum + w ∧
    pre.sum + w ≤ units + g.available

/-- Aborting `signal` uncovers a waiter: the first live waiter not waiting on
`signal` fits in the free permits. -/
def Uncovers (g : Gate) (signal : ℕ) : Prop :=
  ∃ w ∈ (weightsOf g.entries (notOn g signal)).head?, w ≤ g.available

/-- The call neither strands nor uncovers a waiter. A callback called twice and a
signal aborted twice do nothing. -/
def LeavesNoneAsleep (g : Gate) : Event → Prop
  | .callRelease i => (g.leases i).released = false → ¬ Strands g (g.leases i).weight
  | .abort signal => g.aborted signal = false → ¬ Uncovers g signal
  | _ => True

section Asleep
variable {capacity tokens : ℤ} {g : Gate}

theorem release_headWaits_iff (h : Inv capacity tokens g) {i : ℕ} (hr : (g.leases i).released = false) :
    HeadWaits (callRelease g i) ↔ ¬ Strands g (g.leases i).weight := by
  obtain ⟨pre, hlive, hle, hav, hblocked, -⟩ := callRelease_spec h hr
  have hpos : ∀ x ∈ liveWeights g, 1 ≤ x := by
    intro x hx
    obtain ⟨j, hj, -, rfl⟩ := mem_weightsOf hx
    exact (h.waiter_fits j hj).1
  unfold HeadWaits
  rw [hav]
  cases hrest : liveWeights (callRelease g i) with
  | nil =>
    refine ⟨fun _ => ?_, fun _ w hw => by simp at hw⟩
    -- everyone was served
    rintro ⟨pre', w, post, hsplit, h1, h2, -⟩
    rw [hlive, hrest, List.append_nil] at hsplit
    rw [hsplit, List.sum_append, List.sum_cons] at hle
    have : 0 ≤ post.sum := List.sum_nonneg fun y hy => by
      have := hpos y (by rw [hlive, hrest, hsplit]; simp [hy])
      omega
    omega
  | cons w post =>
    rw [hrest] at hlive hblocked
    have hw := hblocked w rfl
    simp only [List.head?_cons, Option.mem_def, Option.some.injEq, forall_eq']
    constructor
    · rintro hlt ⟨pre', w', post', hsplit, h1, h2, h3⟩
      obtain ⟨rfl, rfl⟩ := split_unique (hlive ▸ hpos) (hlive.symm.trans hsplit) hle hw h1 h2
      omega
    · intro hno
      by_contra hge
      exact hno ⟨pre, w, post, hlive, hle, hw, by omega⟩

theorem abort_headWaits_iff (h : Inv capacity tokens g) {signal : ℕ} (ha : g.aborted signal = false) :
    HeadWaits (abort g signal) ↔ ¬ Uncovers g signal := by
  obtain ⟨hlive, hav, -⟩ := abort_spec h ha
  unfold HeadWaits Uncovers
  rw [hlive, hav]
  push Not
  rfl

theorem HeadWaits.of_grant (hh : HeadWaits g) {w : ℤ} (h1 : 1 ≤ w) : HeadWaits (grant g w) := by
  intro x hx
  have := hh x hx
  show g.available - w < x
  omega

theorem HeadWaits.of_enqueue (h : Inv capacity tokens g) (hh : HeadWaits g) {w : ℤ}
    (hw : g.available < w) (signal : Option ℕ) : HeadWaits (enqueue g w signal) := by
  have hlive : liveWeights (enqueue g w signal) = liveWeights g ++ [w] := by
    unfold liveWeights
    show weightsOf _ (g.waiters ++ [g.nextEntry]) = _
    have hold : weightsOf (enqueue g w signal).entries g.waiters = weightsOf g.entries g.waiters :=
      weightsOf_congr fun i hi => update_of_ne (h.waiter_lt i hi).ne _ _
    rw [← hold]
    simp [weightsOf, enqueue]
  intro x hx
  rw [hlive] at hx
  show g.available < x
  cases hl : liveWeights g with
  | nil => rw [hl] at hx; simp at hx; omega
  | cons y ys => rw [hl] at hx; exact hh x (by rw [hl]; exact hx)

/-- From a state where the first live waiter does not fit, a call keeps it so
exactly when it leaves no waiter asleep. -/
theorem headWaits_step_iff (h : Inv capacity tokens g) (hh : HeadWaits g) (e : Event) :
    HeadWaits (step g e) ↔ LeavesNoneAsleep g e := by
  cases e with
  | acquire weight signal =>
    refine iff_of_true ?_ trivial
    simp only [step, acquire]
    cases hw : assertLimitRequired weight "weight" g.className 1 1 with
    | error e => exact hh
    | ok w =>
      simp only
      split_ifs with hcap hab hav hfull
      · exact hh
      · exact hh
      · exact hh.of_grant (assertLimitRequired_ge hw le_rfl)
      · exact hh
      · exact hh.of_enqueue h (by omega) signal
  | tryAcquire weight =>
    refine iff_of_true ?_ trivial
    simp only [step, tryAcquire]
    cases hw : assertLimitRequired weight "weight" g.className 1 1 with
    | error e => exact hh
    | ok w =>
      simp only
      split_ifs with hav
      · exact hh.of_grant (assertLimitRequired_ge hw le_rfl)
      · exact hh
  | callRelease i =>
    cases hr : (g.leases i).released with
    | true => simpa [step, callRelease, hr, LeavesNoneAsleep] using hh
    | false => simpa [step, LeavesNoneAsleep, hr] using release_headWaits_iff h hr
  | abort signal =>
    cases ha : g.aborted signal with
    | true => simpa [step, abort, ha, LeavesNoneAsleep] using hh
    | false => simpa [step, LeavesNoneAsleep, ha] using abort_headWaits_iff h ha

theorem liveWeights_nil_of_allReleased (h : Inv capacity capacity g) (hh : HeadWaits g)
    (hr : AllReleased g) : liveWeights g = [] := by
  have hout : outstanding g = 0 := by
    unfold outstanding unitsOf
    exact Finset.sum_eq_zero fun i hi => by simp [Lease.units, hr i (Finset.mem_range.mp hi)]
  have hfree : g.available = g.capacity := by
    have := h.balance
    rw [h.held_eq, hout] at this
    rw [h.capacity_eq]
    omega
  cases hl : liveWeights g with
  | nil => rfl
  | cons w ws =>
    obtain ⟨i, hi, -, rfl⟩ := mem_weightsOf (hl ▸ List.mem_cons_self : w ∈ liveWeights g)
    have := hh (g.entries i).weight (by rw [hl]; rfl)
    have := (h.waiter_fits i hi).2
    omega

end Asleep

/-- **No grantable waiter stays asleep, exactly when no call leaves one.** In
every state of a run the first live waiter does not fit in the free permits (and,
with the default tokens, nobody waits once every lease is released) if and only
if no release of the run strands a waiter and no abort uncovers one. -/
theorem headWaits_iff_no_strand {o : Options} {g : Gate} (hg : new o = .ok g) (es : List Event) :
    Always step
        (fun g => HeadWaits g ∧
          (o.initialTokens = none → AllReleased g → liveWeights g = [])) g es ↔
      Meets step LeavesNoneAsleep g es := by
  obtain ⟨hinv, htokens, hempty⟩ := new_inv hg
  have hstart : HeadWaits g := by
    intro w hw
    simp [liveWeights, hempty, weightsOf] at hw
  have hrun : Always step HeadWaits g es ↔ Meets step LeavesNoneAsleep g es :=
    always_iff_meets (Q := Inv g.capacity g.available) (fun s e h => h.of_step e)
      (fun s e h hh => headWaits_step_iff h hh e) hinv hstart
  rw [← hrun]
  refine ⟨fun h => h.mono fun s hs => hs.1, fun h => ?_⟩
  have hall := h.and
    (always_of_step (P := Inv g.capacity g.available) (fun s e h => h.of_step e) hinv es)
  refine hall.mono fun s hs => ⟨hs.1, fun ht hr => ?_⟩
  have htok : g.available = g.capacity := htokens ht
  exact liveWeights_nil_of_allReleased (htok ▸ hs.2) hs.1 hr

/-- A holder of two of three permits releases, and the waiter for two behind it
takes them over. -/
theorem headWaits_transfer : ∃ g, new { capacity := some 3 } = .ok g ∧
    Always step (fun g => HeadWaits g ∧
        (({ capacity := some 3 } : Options).initialTokens = none → AllReleased g →
          liveWeights g = []))
      g [.acquire (some 2) none, .acquire (some 2) none, .callRelease 0] := by
  refine ⟨_, rfl, (headWaits_iff_no_strand rfl _).mpr ⟨trivial, trivial, ?_, trivial⟩⟩
  rintro - ⟨pre, w, post, hlive, h1, h2, -⟩
  have hl : [2] = pre ++ w :: post := hlive
  cases pre with
  | nil =>
    obtain ⟨rfl, -⟩ := List.cons.inj hl
    exact absurd h2 (by decide)
  | cons x xs => simp at hl

/-- Two holders of one permit each, and a waiter for both: each release frees one
permit, neither covers the waiter, and it sleeps on with both permits free. -/
theorem partial_releases_strand : ∃ g, new { capacity := some 2 } = .ok g ∧
    let g' := run step g
      [.acquire (some 1) none, .acquire (some 1) none, .acquire (some 2) none,
        .callRelease 0, .callRelease 1]
    AllReleased g' ∧ g'.available = 2 ∧ liveWeights g' = [2] ∧ ¬ HeadWaits g' := by
  refine ⟨_, rfl, ?_, by decide, by decide, ?_⟩
  · unfold AllReleased
    decide
  · unfold HeadWaits
    decide

end PerformanceHelpers.PermitGate
