import PerformanceHelpers.PermitGate.Grants

/- `PowerBulkhead` (`src/helpers/powerBulkhead.js`): tasks run in partitions, each behind a
   permit gate of its own.

   The promise callbacks of a task are events. An event takes one task one callback further, and
   callbacks of different tasks may run in any order: what is proved holds of every interleaving,
   the one the microtask queue picks among them.

   What is proved:
     1. `Books.of_step` — the leases that are out at each gate are those its tasks hold, the live
        waiters are the tasks that wait, and the two counters are sums over the tasks.
     2. `bulkhead_accounts` — so the weights, the counters and `drain()` are as they should be in
        every run, and every task that is not aborted while it waits is called exactly once,
        exactly when no release of the last permit of a partition strands the first task that
        waits there (`stranded_by_the_last`). -/
namespace PerformanceHelpers.PowerBulkhead
open Function (update update_self update_of_ne update_eq_self comp)
open PermitGate (Gate openLeases liveWaiters outstanding liveWeights Rested StrandsLast)

/-- What a task of `run` or `tryRun` waits for. -/
inductive Phase where
  /-- `permit` is pending: the task is in the gate's queue. -/
  | waiting (entry : ℕ)
  /-- `permit` is fulfilled, and its callback is to run. -/
  | granted (lease : ℕ)
  /-- `permit` is rejected, and its callback is to run. -/
  | refused
  /-- `Promise.resolve().then(() => task())` is to run. -/
  | starting (lease : ℕ)
  /-- The task has been called and has not settled. -/
  | running (lease : ℕ)
  /-- The task has settled, and the `finally` that releases its permit is to run. -/
  | settled (lease : ℕ)
  /-- The outermost `finally` is to run. -/
  | leaving
  | done
  deriving DecidableEq, Repr

structure Task where
  partition : ℕ
  weight : ℤ
  signal : Option ℕ
  willQueue : Bool
  /-- It came by `tryRun`. -/
  direct : Bool
  phase : Phase
  /-- How often `task()` was called. -/
  invocations : ℕ
  /-- Its `permit` was rejected. -/
  aborted : Bool
  deriving DecidableEq, Repr

structure Bucket where
  shed : ℕ
  gate : Gate

structure Bulkhead where
  partitions : ℕ
  maxConcurrency : ℤ
  queueCapacity : ℤ
  /-- There is a `partitioner`. -/
  partitioner : Bool
  nextPartition : ℕ
  activeCount : ℤ
  outstanding : ℤ
  shed : ℕ
  buckets : ℕ → Bucket
  /-- The `drain()` promises that are pending, and those that were resolved. -/
  drainWaiters : List ℕ
  resolved : List ℕ
  nextDrain : ℕ
  tasks : List Task

structure Options where
  partitions : Option ℤ := none
  maxConcurrency : Option ℤ := none
  queueCapacity : Option ℤ := none
  partitioner : Bool := false

/-- The constructor. -/
def new (o : Options) : Except String Bulkhead := do
  let partitions ← assertLimitRequired o.partitions "partitions" "PowerBulkhead" 1 4
  let maxConcurrency ← assertLimitRequired o.maxConcurrency "maxConcurrency" "PowerBulkhead" 1 1
  let queueCapacity ← assertLimitRequired o.queueCapacity "queueCapacity" "PowerBulkhead" 0 100
  let gate ← PermitGate.new { capacity := some maxConcurrency, queueCapacity := some queueCapacity }
  pure
    { partitions := partitions.toNat, maxConcurrency, queueCapacity, partitioner := o.partitioner
      nextPartition := 0, activeCount := 0, outstanding := 0, shed := 0
      buckets := fun _ => ⟨0, gate⟩, drainWaiters := [], resolved := [], nextDrain := 0, tasks := [] }

/-- What a call says of its partition: the code units of `String(partitionKey)`, nothing for
`null` and `undefined`, and the whole part of what the partitioner makes of it, nothing where
that is not finite. -/
structure Key where
  text : Option (List ℕ) := none
  index : Option ℤ := none
  deriving DecidableEq, Repr

/-- `_hashKey`; the shift is of 32 bits, the sum is not. -/
def hashKey (value : List ℕ) : ℕ :=
  (value.foldl (fun hash code => Int.bmod (hash * 32) (2 ^ 32) + hash + code) (5381 : ℤ) % 2 ^ 32).toNat

def choosePartition (b : Bulkhead) (key : Key) : Bulkhead × ℕ :=
  if b.partitioner then
    (b, match key.index with
      | none => 0
      | some raw => raw.natAbs % b.partitions)
  else
    match key.text with
    | some value => (b, hashKey value % b.partitions)
    | none => ({ b with nextPartition := (b.nextPartition + 1) % b.partitions }, b.nextPartition)

def Bulkhead.gate (b : Bulkhead) (p : ℕ) : Gate := (b.buckets p).gate

def Bulkhead.setGate (b : Bulkhead) (p : ℕ) (g : Gate) : Bulkhead :=
  { b with buckets := Function.update b.buckets p { b.buckets p with gate := g } }

/-! ## The promise of a waiter -/

def Task.leaveQueue (p entry : ℕ) (f : Task → Task) (t : Task) : Task :=
  if t.partition = p ∧ t.phase = .waiting entry then f t else t

def Task.grant (lease : ℕ) (t : Task) : Task := { t with phase := .granted lease }

def Task.refuse (t : Task) : Task := { t with phase := .refused, aborted := true }

/-- `entry.resolve(release)`. -/
def resolve (p : ℕ) (tasks : List Task) (grant : ℕ × ℕ) : List Task :=
  tasks.map (Task.leaveQueue p grant.1 (Task.grant grant.2))

/-- `reject(abortReason(signal))`. -/
def reject (p : ℕ) (tasks : List Task) (entry : ℕ) : List Task :=
  tasks.map (Task.leaveQueue p entry Task.refuse)

/-- `release()`: the waiters that are served hear of it. -/
def release (b : Bulkhead) (p lease : ℕ) : Bulkhead :=
  let g := PermitGate.callRelease (b.gate p) lease
  { b.setGate p g with tasks := (PermitGate.grants (b.gate p) g).foldl (resolve p) b.tasks }

def abortIn (signal : ℕ) (b : Bulkhead) (p : ℕ) : Bulkhead :=
  if (b.gate p).aborted signal then b
  else
    { b.setGate p (PermitGate.abort (b.gate p) signal) with
      tasks := (PermitGate.listeners (b.gate p) signal).foldl (reject p) b.tasks }

def abort (b : Bulkhead) (signal : ℕ) : Bulkhead := (List.range b.partitions).foldl (abortIn signal) b

/-! ## The calls -/

/-- What a call gives back: an admitted task's promise, `null`, a rejected promise, or it throws. -/
inductive Answer where
  | promise (task : ℕ)
  | null
  | rejects (error : String)
  | throws (error : String)
  deriving DecidableEq, Repr

/-- A new task of `run`, by what the gate said to it. -/
def admitted (p : ℕ) (weight : ℤ) (signal : Option ℕ) (willQueue : Bool) : PermitGate.Outcome → Task
  | .granted lease => ⟨p, weight, signal, willQueue, false, .granted lease, 0, false⟩
  | .queued entry => ⟨p, weight, signal, willQueue, false, .waiting entry, 0, false⟩
  | .refused _ | .nothing => ⟨p, weight, signal, willQueue, false, .refused, 0, true⟩

def run (b : Bulkhead) (key : Key) (weight : Option ℤ) (signal : Option ℕ) : Bulkhead × Answer :=
  match assertLimitRequired weight "weight" "PowerBulkhead" 1 1 with
  | .error e => (b, .throws e)
  | .ok weight =>
    let (b, p) := choosePartition b key
    let gate := b.gate p
    if gate.capacity < weight then
      (b, .rejects (s!"PowerBulkhead: `weight` ({weight}) exceeds partition `maxConcurrency` " ++
        s!"({gate.capacity}). A task that needs more slots than a partition can hold can never run."))
    else
      let willQueue := decide (gate.available < weight)
      if willQueue && decide (b.queueCapacity ≤ gate.pending) then
        ({ b with
            shed := b.shed + 1
            buckets := Function.update b.buckets p { b.buckets p with shed := (b.buckets p).shed + 1 } },
          .rejects "PowerBulkhead queue is full")
      else
        let r := PermitGate.acquire gate (some weight) signal
        ({ b.setGate p r.1 with
            outstanding := b.outstanding + 1
            activeCount := if willQueue then b.activeCount else b.activeCount + 1
            tasks := b.tasks ++ [admitted p weight signal willQueue r.2] }, .promise b.tasks.length)

def tryRun (b : Bulkhead) (key : Key) (weight : Option ℤ) : Bulkhead × Answer :=
  match assertLimitRequired weight "weight" "PowerBulkhead" 1 1 with
  | .error e => (b, .throws e)
  | .ok weight =>
    let (b, p) := choosePartition b key
    let r := PermitGate.tryAcquire (b.gate p) (some weight)
    match r.2 with
    | .granted lease =>
      ({ b.setGate p r.1 with
          outstanding := b.outstanding + 1
          activeCount := b.activeCount + 1
          tasks := b.tasks ++
            [{ partition := p, weight, signal := none, willQueue := false, direct := true
               phase := .starting lease, invocations := 0, aborted := false }] },
        .promise b.tasks.length)
    | _ => (b, .null)

def resolveDrainWaitersIfIdle (b : Bulkhead) : Bulkhead :=
  if b.outstanding ≠ 0 then b else { b with drainWaiters := [], resolved := b.resolved ++ b.drainWaiters }

def drain (b : Bulkhead) : Bulkhead :=
  if b.outstanding = 0 then { b with resolved := b.resolved ++ [b.nextDrain], nextDrain := b.nextDrain + 1 }
  else { b with drainWaiters := b.drainWaiters ++ [b.nextDrain], nextDrain := b.nextDrain + 1 }

def Bulkhead.update (b : Bulkhead) (k : ℕ) (f : Task → Task) : Bulkhead :=
  { b with tasks := b.tasks.modify k f }

/-- The `finally` that releases. That of `tryRun` is the outermost one too. -/
def afterTask (b : Bulkhead) (k : ℕ) (t : Task) (lease : ℕ) : Bulkhead :=
  let b := release (b.update k fun t => { t with phase := if t.direct then .done else .leaving })
    t.partition lease
  resolveDrainWaitersIfIdle
    { b with
      activeCount := max 0 (b.activeCount - 1)
      outstanding := if t.direct then max 0 (b.outstanding - 1) else b.outstanding }

/-- The promise callback that task `k` is next to get. -/
def callback (b : Bulkhead) (k : ℕ) : Bulkhead :=
  match b.tasks[k]? with
  | none => b
  | some t =>
    match t.phase with
    | .granted lease =>
      { b.update k fun t => { t with phase := .starting lease } with
        activeCount := if t.willQueue then b.activeCount + 1 else b.activeCount }
    | .refused =>
      resolveDrainWaitersIfIdle
        { b.update k fun t => { t with phase := .leaving } with
          activeCount := if t.willQueue then b.activeCount else max 0 (b.activeCount - 1) }
    | .starting lease =>
      b.update k fun t => { t with phase := .running lease, invocations := t.invocations + 1 }
    | .settled lease => afterTask b k t lease
    | .leaving =>
      resolveDrainWaitersIfIdle
        { b.update k fun t => { t with phase := .done } with outstanding := max 0 (b.outstanding - 1) }
    | .waiting _ | .running _ | .done => b

/-- The promise of task `k` settles, either way. -/
def settle (b : Bulkhead) (k : ℕ) : Bulkhead :=
  match b.tasks[k]? with
  | none => b
  | some t =>
    match t.phase with
    | .running lease => b.update k fun t => { t with phase := .settled lease }
    | _ => b

inductive Event where
  | run (key : Key) (weight : Option ℤ) (signal : Option ℕ)
  | tryRun (key : Key) (weight : Option ℤ)
  | settle (task : ℕ)
  | callback (task : ℕ)
  | abort (signal : ℕ)
  | drain
  deriving DecidableEq, Repr

def step (b : Bulkhead) : Event → Bulkhead
  | .run key weight signal => (run b key weight signal).1
  | .tryRun key weight => (tryRun b key weight).1
  | .settle k => settle b k
  | .callback k => callback b k
  | .abort signal => abort b signal
  | .drain => drain b

/-! ## What the tasks say of the gates and the counters -/

def Phase.lease : Phase → Option ℕ
  | .granted l | .starting l | .running l | .settled l => some l
  | .waiting _ | .refused | .leaving | .done => none

def Phase.entry : Phase → Option ℕ
  | .waiting i => some i
  | _ => none

/-- What a task holds at the gate of partition `p`. -/
def Task.held (p : ℕ) (t : Task) : Option (ℕ × ℤ) :=
  if t.partition = p then t.phase.lease.map fun l => (l, t.weight) else none

def Task.waited (p : ℕ) (t : Task) : Option (ℕ × ℤ × Option ℕ) :=
  if t.partition = p then t.phase.entry.map fun i => (i, t.weight, t.signal) else none

/-- The task is in `_activeCount`: from its submission when its permit was free, from the
callback of its permit when it was queued, to the `finally` that releases. -/
def Task.counted (t : Task) : Bool :=
  match t.phase with
  | .granted _ | .refused => !t.willQueue
  | .starting _ | .running _ | .settled _ => true
  | .waiting _ | .leaving | .done => false

/-- Its outermost `finally` has not run. -/
def Task.unsettled (t : Task) : Bool := decide (t.phase ≠ .done)

/-- How often it was called, and whether it was turned away, where it is. -/
def Task.Sound (aborted : ℕ → Bool) (t : Task) : Prop :=
  match t.phase with
  | .waiting _ => t.willQueue = true ∧ t.invocations = 0 ∧ t.aborted = false
  | .granted _ | .starting _ => t.invocations = 0 ∧ t.aborted = false
  | .running _ | .settled _ => t.invocations = 1 ∧ t.aborted = false
  | .refused => t.invocations = 0 ∧ t.aborted = true ∧ t.signal.any aborted = true
  | .leaving | .done => (t.invocations = 1 ∧ t.aborted = false) ∨
      (t.invocations = 0 ∧ t.aborted = true ∧ t.signal.any aborted = true)

structure Books (gates : ℕ → Gate) (tasks : List Task) (active outstanding : ℤ) : Prop where
  held : ∀ p, (tasks.filterMap (Task.held p)).Perm (openLeases (gates p))
  waited : ∀ p, (tasks.filterMap (Task.waited p)).Perm (liveWaiters (gates p))
  each : ∀ t ∈ tasks, t.Sound (gates t.partition).aborted
  active_eq : active = tasks.countP Task.counted
  outstanding_eq : outstanding = tasks.countP Task.unsettled

section
variable {gates : ℕ → Gate} {tasks : List Task} {active outstanding : ℤ} {g g' : Gate} {p i : ℕ} {t : Task}

theorem Task.Sound.mono {aborted aborted' : ℕ → Bool} (h : t.Sound aborted)
    (hab : ∀ s, aborted s = true → aborted' s = true) : t.Sound aborted' := by
  have hany : t.signal.any aborted = true → t.signal.any aborted' = true := by
    cases hs : t.signal with
    | none => exact fun h => (nomatch h)
    | some s => exact hab s
  unfold Task.Sound at h ⊢
  split at h
  · exact h
  · exact h
  · exact h
  · exact h
  · exact h
  · exact ⟨h.1, h.2.1, hany h.2.2⟩
  · exact h.imp id fun h => ⟨h.1, h.2.1, hany h.2.2⟩
  · exact h.imp id fun h => ⟨h.1, h.2.1, hany h.2.2⟩

theorem countP_split (q : Task → Bool) (pre post : List Task) (t : Task) :
    ((pre ++ t :: post).countP q : ℤ) = pre.countP q + post.countP q + (q t).toNat := by
  rw [List.countP_append, List.countP_cons]
  cases q t <;> simp <;> omega

theorem filterMap_split {β : Type} (f : Task → Option β) (pre post : List Task) (t : Task) :
    ((pre ++ t :: post).filterMap f).Perm ((f t).toList ++ (pre ++ post).filterMap f) := by
  rw [List.filterMap_append, List.filterMap_append, List.filterMap_cons]
  cases f t with
  | none => exact List.Perm.refl _
  | some x => exact List.perm_middle

theorem modify_split {k : ℕ} (hk : tasks[k]? = some t) (f : Task → Task) :
    ∃ pre post, tasks = pre ++ t :: post ∧ tasks.modify k f = pre ++ f t :: post := by
  obtain ⟨hlt, rfl⟩ := List.getElem?_eq_some_iff.mp hk
  refine ⟨tasks.take k, tasks.drop (k + 1), ?_, ?_⟩
  · rw [List.getElem_cons_drop, List.take_append_drop]
  · rw [List.modify_eq_take_cons_drop hlt]

section
variable (h : Books gates tasks active outstanding)
include h

theorem Books.replace (g' : Gate) {k : ℕ}
    (hk : tasks[k]? = some t) {f : Task → Task} (hp : (f t).partition = t.partition) {a o : ℤ}
    (hopen : ∀ xs, ((t.held t.partition).toList ++ xs).Perm (openLeases (gates t.partition)) →
      (((f t).held t.partition).toList ++ xs).Perm (openLeases g'))
    (hwaited : (f t).waited t.partition = t.waited t.partition)
    (hlive : liveWaiters g' = liveWaiters (gates t.partition))
    (haborted : g'.aborted = (gates t.partition).aborted)
    (hsound : (f t).Sound (gates t.partition).aborted)
    (ha : active + (f t).counted.toNat = a + t.counted.toNat)
    (ho : outstanding + (f t).unsettled.toNat = o + t.unsettled.toNat) :
    Books (update gates t.partition g') (tasks.modify k f) a o := by
  obtain ⟨pre, post, hsplit, hmodify⟩ := modify_split hk f
  rw [hmodify]
  have hother : ∀ q, q ≠ t.partition → t.held q = none ∧ (f t).held q = none ∧
      t.waited q = none ∧ (f t).waited q = none := by
    intro q hq
    simp [Task.held, Task.waited, hp, hq.symm]
  have haborted' : ∀ q, (update gates t.partition g' q).aborted = (gates q).aborted := by
    intro q
    by_cases hq : q = t.partition
    · rw [hq, update_self, haborted]
    · rw [update_of_ne hq]
  refine ⟨fun q => ?_, fun q => ?_, fun u hu => ?_, ?_, ?_⟩
  · have hold := (filterMap_split (Task.held q) pre post t).symm.trans (hsplit ▸ h.held q)
    refine (filterMap_split (Task.held q) pre post (f t)).trans ?_
    by_cases hq : q = t.partition
    · subst hq
      rw [update_self]
      exact hopen _ hold
    · rw [update_of_ne hq, (hother q hq).2.1, ← (hother q hq).1]
      exact hold
  · have hold := (filterMap_split (Task.waited q) pre post t).symm.trans (hsplit ▸ h.waited q)
    refine (filterMap_split (Task.waited q) pre post (f t)).trans ?_
    by_cases hq : q = t.partition
    · subst hq
      rw [update_self, hwaited, hlive]
      exact hold
    · rw [update_of_ne hq, (hother q hq).2.2.2, ← (hother q hq).2.2.1]
      exact hold
  · rw [haborted']
    rcases List.mem_append.mp hu with hu | hu
    · exact h.each u (by rw [hsplit]; exact List.mem_append_left _ hu)
    · rcases List.mem_cons.mp hu with rfl | hu
      · rw [hp]
        exact hsound
      · exact h.each u (by rw [hsplit]; exact List.mem_append_right _ (List.mem_cons_of_mem _ hu))
  · have hold := h.active_eq
    rw [hsplit, countP_split] at hold
    rw [countP_split]
    omega
  · have hold := h.outstanding_eq
    rw [hsplit, countP_split] at hold
    rw [countP_split]
    omega

/-- A task goes on and its gate has no part in it. -/
theorem Books.move {k : ℕ} (hk : tasks[k]? = some t)
    {f : Task → Task} (hp : (f t).partition = t.partition) {a o : ℤ}
    (hheld : (f t).held t.partition = t.held t.partition)
    (hwaited : (f t).waited t.partition = t.waited t.partition)
    (hsound : (f t).Sound (gates t.partition).aborted)
    (ha : active + (f t).counted.toNat = a + t.counted.toNat)
    (ho : outstanding + (f t).unsettled.toNat = o + t.unsettled.toNat) :
    Books gates (tasks.modify k f) a o := by
  have hbooks := h.replace (gates t.partition) hk hp (fun xs hxs => by rwa [hheld]) hwaited rfl rfl
    hsound ha ho
  rwa [update_eq_self] at hbooks

theorem Books.append {a : ℤ}
    (hopen : openLeases g' = openLeases (gates t.partition) ++ (t.held t.partition).toList)
    (hlive : liveWaiters g' = liveWaiters (gates t.partition) ++ (t.waited t.partition).toList)
    (haborted : g'.aborted = (gates t.partition).aborted)
    (hsound : t.Sound (gates t.partition).aborted) (ha : a = active + t.counted.toNat)
    (ho : t.unsettled = true) :
    Books (update gates t.partition g') (tasks ++ [t]) a (outstanding + 1) := by
  have hother : ∀ q, q ≠ t.partition → t.held q = none ∧ t.waited q = none := by
    intro q hq
    simp [Task.held, Task.waited, hq.symm]
  have haborted' : ∀ q, (update gates t.partition g' q).aborted = (gates q).aborted := by
    intro q
    by_cases hq : q = t.partition
    · rw [hq, update_self, haborted]
    · rw [update_of_ne hq]
  have hlast : ∀ {β : Type} (f : Task → Option β), [t].filterMap f = (f t).toList := by
    intro β f
    cases hf : f t <;> simp [hf]
  refine ⟨fun q => ?_, fun q => ?_, fun u hu => ?_, ?_, ?_⟩
  · rw [List.filterMap_append, hlast]
    by_cases hq : q = t.partition
    · subst hq
      rw [update_self, hopen]
      exact (h.held t.partition).append_right _
    · rw [update_of_ne hq, (hother q hq).1, Option.toList_none, List.append_nil]
      exact h.held q
  · rw [List.filterMap_append, hlast]
    by_cases hq : q = t.partition
    · subst hq
      rw [update_self, hlive]
      exact (h.waited t.partition).append_right _
    · rw [update_of_ne hq, (hother q hq).2, Option.toList_none, List.append_nil]
      exact h.waited q
  · rw [haborted']
    rcases List.mem_append.mp hu with hu | hu
    · exact h.each u hu
    · rw [List.mem_singleton.mp hu]
      exact hsound
  · have hcount := countP_split Task.counted tasks [] t
    rw [hcount, ha, h.active_eq, List.countP_nil]
    omega
  · have hcount := countP_split Task.unsettled tasks [] t
    rw [hcount, h.outstanding_eq, List.countP_nil, ho]
    simp

end

/-! ## A waiter leaves the queue -/

theorem waited_of_waiting (hp : t.partition = p) (hw : t.phase = .waiting i) :
    t.waited p = some (i, t.weight, t.signal) := by
  rw [Task.waited, if_pos hp, hw]
  rfl

theorem waiting_of_waited {x : ℕ × ℤ × Option ℕ} (hx : t.waited p = some x) :
    t.partition = p ∧ t.phase = .waiting x.1 := by
  unfold Task.waited at hx
  split at hx
  · rename_i hp
    cases hphase : t.phase with
    | waiting j =>
      rw [hphase] at hx
      cases hx
      exact ⟨hp, rfl⟩
    | granted l | refused | starting l | running l | settled l | leaving | done =>
      rw [hphase] at hx
      cases hx
  · cases hx

theorem held_of_waiting {q : ℕ} (hw : t.phase = .waiting i) : t.held q = none := by
  unfold Task.held
  rw [hw]
  split <;> rfl

theorem waited_of_entry {q : ℕ} (ht : t.phase.entry = none) : t.waited q = none := by
  unfold Task.waited
  rw [ht]
  split <;> rfl

section
variable {f : Task → Task}

theorem waited_leaveQueue (hf : ∀ t, (f t).phase.entry = none) (tasks : List Task) (p i : ℕ) :
    (tasks.map (Task.leaveQueue p i f)).filterMap (Task.waited p) =
      (tasks.filterMap (Task.waited p)).filter fun x => decide (x.1 ≠ i) := by
  rw [List.filterMap_map, List.filter_filterMap]
  refine List.filterMap_congr fun t _ => ?_
  unfold comp Task.leaveQueue
  split
  · rename_i ht
    rw [waited_of_entry (hf t), waited_of_waiting ht.1 ht.2]
    simp [Option.filter]
  · rename_i ht
    cases hw : t.waited p with
    | none => rfl
    | some x =>
      obtain ⟨hp, hphase⟩ := waiting_of_waited hw
      have hne : x.1 ≠ i := fun h => ht ⟨hp, h ▸ hphase⟩
      simp [Option.filter, hne]

theorem waited_leaveQueue_of_ne (hp : ∀ t, (f t).partition = t.partition) (tasks : List Task) (p i : ℕ)
    {q : ℕ} (hq : q ≠ p) :
    (tasks.map (Task.leaveQueue p i f)).filterMap (Task.waited q) = tasks.filterMap (Task.waited q) := by
  rw [List.filterMap_map]
  refine List.filterMap_congr fun t _ => ?_
  unfold comp Task.leaveQueue
  split
  · rename_i ht
    have hne : t.partition ≠ q := ht.1 ▸ hq.symm
    rw [Task.waited, Task.waited, if_neg (by rwa [hp]), if_neg hne]
  · rfl

theorem held_leaveQueue_of_ne (hp : ∀ t, (f t).partition = t.partition) (tasks : List Task) (p i : ℕ)
    {q : ℕ} (hq : q ≠ p) :
    (tasks.map (Task.leaveQueue p i f)).filterMap (Task.held q) = tasks.filterMap (Task.held q) := by
  rw [List.filterMap_map]
  refine List.filterMap_congr fun t _ => ?_
  unfold comp Task.leaveQueue
  split
  · rename_i ht
    have hne : t.partition ≠ q := ht.1 ▸ hq.symm
    rw [Task.held, Task.held, if_neg (by rwa [hp]), if_neg hne]
  · rfl

theorem held_resolve (tasks : List Task) (p i l : ℕ) :
    ((resolve p tasks (i, l)).filterMap (Task.held p)).Perm
      (tasks.filterMap (Task.held p) ++
        ((tasks.filterMap (Task.waited p)).filter fun x => decide (x.1 = i)).map fun x => (l, x.2.1)) := by
  induction tasks with
  | nil => exact List.Perm.refl _
  | cons t tasks ih =>
    have hcons : resolve p (t :: tasks) (i, l) =
        t.leaveQueue p i (Task.grant l) :: resolve p tasks (i, l) := rfl
    rw [hcons]
    by_cases ht : t.partition = p ∧ t.phase = .waiting i
    · have hheld : (t.leaveQueue p i (Task.grant l)).held p = some (l, t.weight) := by
        simp [Task.leaveQueue, Task.grant, Task.held, ht, Phase.lease]
      rw [List.filterMap_cons_some hheld, List.filterMap_cons_none (held_of_waiting ht.2),
        List.filterMap_cons_some (waited_of_waiting ht.1 ht.2), List.filter_cons_of_pos (by simp), List.map_cons]
      exact (ih.cons _).trans List.perm_middle.symm
    · have hsame : t.leaveQueue p i (Task.grant l) = t := if_neg ht
      have hfilter : ((t :: tasks).filterMap (Task.waited p)).filter (fun x => decide (x.1 = i)) =
          (tasks.filterMap (Task.waited p)).filter fun x => decide (x.1 = i) := by
        cases hw : t.waited p with
        | none => rw [List.filterMap_cons_none hw]
        | some x =>
          obtain ⟨hp, hphase⟩ := waiting_of_waited hw
          have hne : x.1 ≠ i := fun h => ht ⟨hp, h ▸ hphase⟩
          rw [List.filterMap_cons_some hw, List.filter_cons_of_neg (by simpa using hne)]
      rw [hsame, hfilter]
      cases hheld : t.held p with
      | none =>
        rw [List.filterMap_cons_none hheld, List.filterMap_cons_none hheld]
        exact ih
      | some x =>
        rw [List.filterMap_cons_some hheld, List.filterMap_cons_some hheld]
        exact ih.cons x

theorem held_reject (tasks : List Task) (p i q : ℕ) :
    (reject p tasks i).filterMap (Task.held q) = tasks.filterMap (Task.held q) := by
  unfold reject
  rw [List.filterMap_map]
  refine List.filterMap_congr fun t _ => ?_
  unfold comp Task.leaveQueue
  split
  · rename_i ht
    rw [held_of_waiting ht.2, Task.held]
    split <;> rfl
  · rfl

theorem counts_leaveQueue (hf : ∀ t, t.willQueue = true → (f t).counted = false)
    (hu : ∀ t, (f t).unsettled = true) (hsound : ∀ t ∈ tasks, ∃ aborted, t.Sound aborted) (p i : ℕ) :
    (tasks.map (Task.leaveQueue p i f)).countP Task.counted = tasks.countP Task.counted ∧
      (tasks.map (Task.leaveQueue p i f)).countP Task.unsettled = tasks.countP Task.unsettled := by
  rw [List.countP_map, List.countP_map]
  constructor
  · refine List.countP_congr fun t ht => ?_
    unfold comp Task.leaveQueue
    split
    · rename_i hw
      obtain ⟨aborted, hs⟩ := hsound t ht
      rw [Task.Sound, hw.2] at hs
      rw [hf t hs.1, Task.counted, hw.2]
    · rfl
  · refine List.countP_congr fun t ht => ?_
    unfold comp Task.leaveQueue
    split
    · rename_i hw
      rw [hu t, Task.unsettled, hw.2]
      simp
    · rfl

end

theorem mem_liveWaiters {x : ℕ × ℤ × Option ℕ} (hx : x ∈ liveWaiters g) :
    x.1 ∈ g.waiters ∧ x.2.2 = (g.entries x.1).signal := by
  obtain ⟨j, hj, rfl⟩ := List.mem_map.mp hx
  exact ⟨(List.mem_filter.mp hj).1, rfl⟩

section
variable (h : Books (Function.update gates p g) tasks active outstanding)
include h

theorem Books.leave {f : Task → Task}
    (hpart : ∀ t, (f t).partition = t.partition) (hentry : ∀ t, (f t).phase.entry = none)
    (hcounted : ∀ t, t.willQueue = true → (f t).counted = false) (hunsettled : ∀ t, (f t).unsettled = true)
    (hlive : liveWaiters g' = (liveWaiters g).filter fun x => decide (x.1 ≠ i))
    (hheld : ((tasks.map (Task.leaveQueue p i f)).filterMap (Task.held p)).Perm (openLeases g'))
    (haborted : g'.aborted = g.aborted)
    (hsound : ∀ t ∈ tasks, t.partition = p → t.phase = .waiting i → t.Sound g.aborted → (f t).Sound g.aborted) :
    Books (update gates p g') (tasks.map (Task.leaveQueue p i f)) active outstanding := by
  have hcounts := counts_leaveQueue hcounted hunsettled (fun t ht => ⟨_, h.each t ht⟩) p i
  refine ⟨fun q => ?_, fun q => ?_, fun u hu => ?_, ?_, ?_⟩
  · by_cases hq : q = p
    · subst hq
      rwa [update_self]
    · have hold := h.held q
      rw [update_of_ne hq] at hold ⊢
      rwa [held_leaveQueue_of_ne hpart tasks p i hq]
  · have hold := h.waited q
    by_cases hq : q = p
    · subst hq
      rw [update_self] at hold ⊢
      rw [waited_leaveQueue hentry, hlive]
      exact hold.filter _
    · rw [update_of_ne hq] at hold ⊢
      rwa [waited_leaveQueue_of_ne hpart tasks p i hq]
  · obtain ⟨t, ht, rfl⟩ := List.mem_map.mp hu
    have hold := h.each t ht
    have hsame : ∀ q, (update gates p g' q).aborted = (update gates p g q).aborted := by
      intro q
      by_cases hq : q = p
      · rw [hq, update_self, update_self, haborted]
      · rw [update_of_ne hq, update_of_ne hq]
    rw [hsame]
    unfold Task.leaveQueue
    split
    · rename_i hw
      rw [hpart, hw.1, update_self]
      rw [hw.1, update_self] at hold
      exact hsound t ht hw.1 hw.2 hold
    · exact hold
  · exact h.active_eq.trans (congrArg _ hcounts.1.symm)
  · exact h.outstanding_eq.trans (congrArg _ hcounts.2.symm)

/-- The head of the queue is served, and its task hears of it. -/
theorem Books.resolve {rest : List ℕ}
    (hq : g.waiters = i :: rest) (hn : (i :: rest).Nodup) (hc : (g.entries i).cancelled = false) :
    Books (update gates p (PermitGate.serveHead g i rest false))
      (PowerBulkhead.resolve p tasks (i, g.nextLease)) active outstanding := by
  have hlive := PermitGate.liveWaiters_serveHead hq hn hc
  have hnot : ∀ x ∈ liveWaiters (PermitGate.serveHead g i rest false), x.1 ≠ i := by
    intro x hx
    have hmem := (mem_liveWaiters hx).1
    rw [PermitGate.serveHead_waiters] at hmem
    exact fun h => (List.nodup_cons.mp hn).1 (h ▸ hmem)
  have hrest : ((liveWaiters (PermitGate.serveHead g i rest false)).filter fun x => decide (x.1 ≠ i)) =
      liveWaiters (PermitGate.serveHead g i rest false) :=
    List.filter_eq_self.mpr fun x hx => by simpa using hnot x hx
  have hnone : ((liveWaiters (PermitGate.serveHead g i rest false)).filter fun x => decide (x.1 = i)) = [] :=
    List.filter_eq_nil_iff.mpr fun x hx => by simpa using hnot x hx
  have hwaited := h.waited p
  have hheld := h.held p
  rw [update_self] at hwaited hheld
  refine h.leave (f := Task.grant g.nextLease) (fun _ => rfl) (fun _ => rfl)
    (fun t ht => by simp [Task.grant, Task.counted, ht]) (fun t => by simp [Task.grant, Task.unsettled])
    ?_ ?_ rfl ?_
  · rw [hlive, List.filter_cons_of_neg (by simp), hrest]
  · refine (held_resolve tasks p i g.nextLease).trans ?_
    rw [PermitGate.openLeases_serveHead]
    refine hheld.append ?_
    have hone := (hwaited.filter fun x => decide (x.1 = i)).map fun x => (g.nextLease, x.2.1)
    rw [hlive, List.filter_cons_of_pos (by simp), hnone] at hone
    exact hone
  · intro t _ _ hw hsound
    rw [Task.Sound, hw] at hsound
    exact hsound.2

/-- An abort listener runs, and its task hears of it. -/
theorem Books.reject {signal : ℕ}
    (hs : ∀ j ∈ g.waiters, (g.entries j).settled = false) (hsignal : (g.entries i).signal = some signal)
    (haborted : g.aborted signal = true) :
    Books (update gates p (PermitGate.onAbort g i)) (PowerBulkhead.reject p tasks i)
      active outstanding := by
  have hopen : openLeases (PermitGate.onAbort g i) = openLeases g := by
    unfold PermitGate.onAbort
    split <;> rfl
  have hab : (PermitGate.onAbort g i).aborted = g.aborted := by
    unfold PermitGate.onAbort
    split <;> rfl
  have hwaited := h.waited p
  have hheld := h.held p
  rw [update_self] at hwaited hheld
  refine h.leave (f := Task.refuse) (fun _ => rfl) (fun _ => rfl)
    (fun t ht => by simp [Task.refuse, Task.counted, ht]) (fun t => by simp [Task.refuse, Task.unsettled])
    (PermitGate.liveWaiters_onAbort hs i) ?_ hab ?_
  · rw [hopen]
    exact (List.Perm.of_eq (held_reject tasks p i p)).trans hheld
  · intro t ht hp hw hsound
    rw [Task.Sound, hw] at hsound
    have hmem : (i, t.weight, t.signal) ∈ liveWaiters g :=
      hwaited.subset (List.mem_filterMap.mpr ⟨t, ht, waited_of_waiting hp hw⟩)
    have htask : t.signal = some signal := (mem_liveWaiters hmem).2.trans hsignal
    refine ⟨hsound.2.1, rfl, ?_⟩
    show t.signal.any g.aborted = true
    rw [htask]
    exact haborted

/-! ## Releases and aborts -/

theorem Books.regate
    (hopen : openLeases g' = openLeases g) (hlive : liveWaiters g' = liveWaiters g)
    (haborted : ∀ s, g.aborted s = true → g'.aborted s = true) :
    Books (update gates p g') tasks active outstanding := by
  refine ⟨fun q => ?_, fun q => ?_, fun t ht => ?_, h.active_eq, h.outstanding_eq⟩
  · have hold := h.held q
    by_cases hq : q = p
    · subst hq
      rw [update_self] at hold ⊢
      rwa [hopen]
    · rw [update_of_ne hq] at hold ⊢
      exact hold
  · have hold := h.waited q
    by_cases hq : q = p
    · subst hq
      rw [update_self] at hold ⊢
      rwa [hlive]
    · rw [update_of_ne hq] at hold ⊢
      exact hold
  · have hold := h.each t ht
    by_cases hq : t.partition = p
    · rw [hq, update_self] at hold ⊢
      exact hold.mono haborted
    · rw [update_of_ne hq] at hold ⊢
      exact hold

end

theorem Books.release {l : ℕ}
    (h : Books (update gates p (PermitGate.mark g l)) tasks active outstanding)
    (hr : (g.leases l).released = false) (hn : g.waiters.Nodup)
    (hs : ∀ j ∈ g.waiters, (g.entries j).settled = false) :
    Books (update gates p (PermitGate.callRelease g l))
      ((PermitGate.grants g (PermitGate.callRelease g l)).foldl (PowerBulkhead.resolve p) tasks)
      active outstanding := by
  obtain ⟨permits, available, held, hcall⟩ := PermitGate.callRelease_serves hr
  have hbooks := PermitGate.serve_rule
    (R := fun g tasks => Books (update gates p g) tasks active outstanding)
    (PowerBulkhead.resolve p) permits
    (fun g i rest tasks c hq hc hbooks =>
      hbooks.regate rfl (PermitGate.liveWaiters_compact hq hc c) fun _ hab => hab)
    (fun g i rest tasks hq hn hc hbooks => hbooks.resolve hq hn hc)
    g.waiters (PermitGate.mark g l) 0 tasks rfl hn hs h
  rw [hcall]
  exact hbooks.regate rfl rfl fun _ hab => hab

theorem Books.abortIn (h : Books (update gates p g) tasks active outstanding) {signal : ℕ}
    (ha : g.aborted signal = false) (hs : ∀ j ∈ g.waiters, (g.entries j).settled = false) :
    Books (update gates p (PermitGate.abort g signal))
      ((PermitGate.listeners g signal).foldl (PowerBulkhead.reject p) tasks) active outstanding := by
  let g₁ : Gate := { g with aborted := update g.aborted signal true }
  have hstart : Books (update gates p g₁) tasks active outstanding := by
    refine h.regate rfl rfl fun s hab => ?_
    show update g.aborted signal true s = true
    by_cases hsig : s = signal
    · rw [hsig, update_self]
    · rw [update_of_ne hsig]
      exact hab
  -- every listener that is still to run waits on the signal
  have hrun := List.foldl_rel (l := PermitGate.listeners g signal) (f := PermitGate.onAbort)
    (g := PowerBulkhead.reject p) (a := g₁) (b := tasks)
    (r := fun g' tasks => Books (update gates p g') tasks active outstanding ∧
      g'.waiters = g.waiters ∧ g'.aborted signal = true ∧
      ∀ j, (g'.entries j).settled = (g.entries j).settled ∧ (g'.entries j).signal = (g.entries j).signal)
    ⟨hstart, rfl, update_self .., fun _ => ⟨rfl, rfl⟩⟩ ?_
  · rw [PermitGate.abort, if_neg (by simp [ha])]
    exact hrun.1
  · rintro i hi g' tasks' ⟨hbooks, hq, hab, hent⟩
    have hsignal : (g.entries i).signal = some signal := by
      have hlisten := (List.mem_filter.mp hi).2
      rw [Bool.and_eq_true, beq_iff_eq] at hlisten
      exact hlisten.2
    refine ⟨hbooks.reject ?_ ((hent i).2.trans hsignal) hab, ?_, ?_, fun j => ⟨?_, ?_⟩⟩
    · intro j hj
      rw [(hent j).1]
      exact hs j (hq ▸ hj)
    · rw [← hq]
      unfold PermitGate.onAbort
      split <;> rfl
    · rw [← hab]
      unfold PermitGate.onAbort
      split <;> rfl
    · rw [(PermitGate.onAbort_keeps g' i j).2.2, (hent j).1]
    · rw [(PermitGate.onAbort_keeps g' i j).2.1, (hent j).2]

theorem Books.one_le_active (h : Books gates tasks active outstanding) (ht : t ∈ tasks)
    (hc : t.counted = true) : 1 ≤ active := by
  have hpos : 0 < tasks.countP Task.counted := List.countP_pos_iff.mpr ⟨t, ht, hc⟩
  have heq := h.active_eq
  omega

theorem Books.one_le_outstanding (h : Books gates tasks active outstanding) (ht : t ∈ tasks)
    (hu : t.unsettled = true) : 1 ≤ outstanding := by
  have hpos : 0 < tasks.countP Task.unsettled := List.countP_pos_iff.mpr ⟨t, ht, hu⟩
  have heq := h.outstanding_eq
  omega

end

/-! ## One step -/

/-- The gates keep their balance and the books are right. -/
structure Sound (capacity : ℤ) (b : Bulkhead) : Prop where
  gate : ∀ p, PermitGate.Inv capacity capacity (b.gate p)
  queue : ∀ p, (b.gate p).queueCapacity = some b.queueCapacity
  books : Books b.gate b.tasks b.activeCount b.outstanding

def AllRested (b : Bulkhead) : Prop := ∀ p, Rested (b.gate p)

/-- A callback gives the last lease of a partition back, and the first task that waits there is
heavier than it. -/
def Strands (b : Bulkhead) : Event → Prop
  | .callback k => ∃ t l, b.tasks[k]? = some t ∧ t.phase = .settled l ∧ StrandsLast (b.gate t.partition) l
  | _ => False

instance (b : Bulkhead) : ∀ e, Decidable (Strands b e)
  | .callback k =>
    match hk : b.tasks[k]? with
    | none => isFalse fun ⟨_, _, ht, _⟩ => by rw [hk] at ht; cases ht
    | some t =>
      match hphase : t.phase with
      | .settled l =>
        decidable_of_iff (StrandsLast (b.gate t.partition) l) <| by
          refine ⟨fun hs => ⟨t, l, hk, hphase, hs⟩, fun ⟨u, m, hu, hm, hs⟩ => ?_⟩
          obtain rfl : t = u := Option.some.inj (hk.symm.trans hu)
          obtain rfl : l = m := Phase.settled.inj (hphase.symm.trans hm)
          exact hs
      | .waiting _ | .granted _ | .refused | .starting _ | .running _ | .leaving | .done =>
        isFalse fun ⟨u, m, hu, hm, _⟩ => by
          obtain rfl : t = u := Option.some.inj (hk.symm.trans hu)
          rw [hphase] at hm
          cases hm
  | .run .. | .tryRun .. | .settle _ | .abort _ | .drain => isFalse id

section
variable {capacity : ℤ} {b b' : Bulkhead}

theorem gate_setGate (b : Bulkhead) (p : ℕ) (g : Gate) : (b.setGate p g).gate = update b.gate p g := by
  funext q
  unfold Bulkhead.gate Bulkhead.setGate
  dsimp only
  by_cases hq : q = p
  · rw [hq, update_self, update_self]
  · rw [update_of_ne hq, update_of_ne hq]

structure Unmoved (b b' : Bulkhead) : Prop where
  queueCapacity : b'.queueCapacity = b.queueCapacity
  gate : b'.gate = b.gate
  tasks : b'.tasks = b.tasks
  active : b'.activeCount = b.activeCount
  outstanding : b'.outstanding = b.outstanding

theorem Unmoved.sound (hm : Unmoved b b') (h : Sound capacity b) : Sound capacity b' :=
  ⟨fun p => hm.gate ▸ h.gate p, fun p => by rw [hm.gate, hm.queueCapacity]; exact h.queue p,
    by rw [hm.gate, hm.tasks, hm.active, hm.outstanding]; exact h.books⟩

theorem Unmoved.rested (hm : Unmoved b b') (h : AllRested b) : AllRested b' := fun p => hm.gate ▸ h p

structure Admits (g g' : Gate) (t : Task) : Prop where
  queueCapacity : g'.queueCapacity = g.queueCapacity
  opens : openLeases g' = openLeases g ++ (t.held t.partition).toList
  lives : liveWaiters g' = liveWaiters g ++ (t.waited t.partition).toList
  aborted_eq : g'.aborted = g.aborted
  sound : t.Sound g.aborted
  unsettled : t.unsettled = true

structure Enters (capacity : ℤ) (b b' : Bulkhead) (t : Task) (g' : Gate) : Prop where
  queueCapacity : b'.queueCapacity = b.queueCapacity
  gate : b'.gate = Function.update b.gate t.partition g'
  tasks : b'.tasks = b.tasks ++ [t]
  active : b'.activeCount = b.activeCount + t.counted.toNat
  outstanding : b'.outstanding = b.outstanding + 1
  admits : Admits (b.gate t.partition) g' t
  inv : PermitGate.Inv capacity capacity g'
  rested : Rested (b.gate t.partition) → Rested g'

theorem Enters.sound {t : Task} {g' : Gate} (he : Enters capacity b b' t g') (h : Sound capacity b) :
    Sound capacity b' := by
  refine ⟨fun p => ?_, fun p => ?_, ?_⟩
  · rw [he.gate]
    by_cases hp : p = t.partition
    · rw [hp, update_self]
      exact he.inv
    · rw [update_of_ne hp]
      exact h.gate p
  · rw [he.gate, he.queueCapacity]
    by_cases hp : p = t.partition
    · rw [hp, update_self, he.admits.queueCapacity]
      exact h.queue t.partition
    · rw [update_of_ne hp]
      exact h.queue p
  · rw [he.gate, he.tasks, he.active, he.outstanding]
    exact h.books.append he.admits.opens he.admits.lives he.admits.aborted_eq he.admits.sound rfl he.admits.unsettled

theorem Enters.allRested {t : Task} {g' : Gate} (he : Enters capacity b b' t g') (h : AllRested b) :
    AllRested b' := by
  intro p
  rw [he.gate]
  by_cases hp : p = t.partition
  · rw [hp, update_self]
    exact he.rested (h t.partition)
  · rw [update_of_ne hp]
    exact h p

theorem choosePartition_unmoved (b : Bulkhead) (key : Key) : Unmoved b (choosePartition b key).1 := by
  unfold choosePartition
  split
  · exact ⟨rfl, rfl, rfl, rfl, rfl⟩
  · split <;> exact ⟨rfl, rfl, rfl, rfl, rfl⟩

/-- A permit that is free is taken. -/
theorem admits_grant {g : Gate} {w : ℤ} (t : Task)
    (hheld : t.held t.partition = some (g.nextLease, w)) (hentry : t.phase.entry = none)
    (hsound : t.Sound g.aborted) (hu : t.unsettled = true) : Admits g (PermitGate.grant g w) t where
  queueCapacity := rfl
  opens := by
    have hopen := PermitGate.openLeases_makeRelease { g with available := g.available - w, held := g.held + w } w
    rw [hheld]
    exact hopen
  lives := by
    rw [waited_of_entry hentry]
    exact (List.append_nil _).symm
  aborted_eq := rfl
  sound := hsound
  unsettled := hu

/-- The gate takes a task of `run`: the bulkhead has seen that it does not refuse it for its
weight, nor for its queue. -/
theorem acquire_admits {g : Gate} (h : PermitGate.Inv capacity capacity g) {w : ℤ} (hw : 1 ≤ w)
    (hcap : w ≤ g.capacity) (hqueue : g.available < w → g.isFull = false) (p : ℕ) (signal : Option ℕ) :
    let r := PermitGate.acquire g (some w) signal
    let t := admitted p w signal (decide (g.available < w)) r.2
    Admits g r.1 t ∧ t.partition = p ∧ t.counted = !decide (g.available < w) ∧
      PermitGate.Inv capacity capacity r.1 ∧ (Rested g → Rested r.1) := by
  have hstep := h.of_step (.acquire (some w) signal)
  have hlimit : assertLimitRequired (some w) "weight" g.className 1 1 = .ok w := by
    rw [assertLimitRequired, if_neg (by omega)]
  simp only [PermitGate.step] at hstep
  unfold PermitGate.acquire at hstep ⊢
  rw [hlimit] at hstep ⊢
  dsimp only at hstep ⊢
  rw [if_neg (by omega)] at hstep ⊢
  by_cases hab : signal.any g.aborted = true
  · rw [if_pos hab]
    refine ⟨⟨rfl, ?_, ?_, rfl, ⟨rfl, rfl, hab⟩, rfl⟩, rfl, rfl, h, id⟩
    · simp [admitted, Task.held, Phase.lease]
    · simp [admitted, Task.waited, Phase.entry]
  · rw [if_neg hab] at hstep ⊢
    by_cases hfree : w ≤ g.available
    · rw [if_pos hfree] at hstep ⊢
      have hheld : (admitted p w signal (decide (g.available < w)) (.granted g.nextLease)).held p =
          some (g.nextLease, w) := by
        simp [admitted, Task.held, Phase.lease]
      refine ⟨admits_grant _ hheld rfl ⟨rfl, rfl⟩ rfl, rfl, rfl, hstep, fun _ => PermitGate.rested_grant h hw⟩
    · have hlt : g.available < w := not_le.mp hfree
      rw [if_neg hfree, if_neg (by simp [hqueue hlt])] at hstep ⊢
      refine ⟨⟨rfl, ?_, ?_, rfl, ⟨decide_eq_true hlt, rfl, rfl⟩, rfl⟩, rfl, ?_, hstep,
        fun _ => PermitGate.rested_enqueue h hlt hcap signal⟩
      · simp [admitted, Task.held, Phase.lease, openLeases, PermitGate.enqueue]
      · rw [PermitGate.liveWaiters_enqueue h.waiter_lt]
        simp [admitted, Task.waited, Phase.entry]
      · simp [admitted, Task.counted, hlt]

theorem run_cases (h : Sound capacity b) (key : Key) (weight : Option ℤ) (signal : Option ℕ) :
    Unmoved b (run b key weight signal).1 ∨
      ∃ t g', Enters capacity b (run b key weight signal).1 t g' := by
  unfold run
  cases hw : assertLimitRequired weight "weight" "PowerBulkhead" 1 1 with
  | error e => exact Or.inl ⟨rfl, rfl, rfl, rfl, rfl⟩
  | ok w =>
    have hw1 : 1 ≤ w := assertLimitRequired_ge hw le_rfl
    have hunmoved := choosePartition_unmoved b key
    dsimp only
    generalize choosePartition b key = r at hunmoved ⊢
    obtain ⟨b₁, p⟩ := r
    dsimp only at hunmoved ⊢
    have h₁ : Sound capacity b₁ := hunmoved.sound h
    by_cases hcap : (b₁.gate p).capacity < w
    · rw [if_pos hcap]
      exact Or.inl hunmoved
    · rw [if_neg hcap]
      by_cases hfull : (decide ((b₁.gate p).available < w) &&
          decide (b₁.queueCapacity ≤ (b₁.gate p).pending)) = true
      · rw [if_pos hfull]
        refine Or.inl ⟨hunmoved.queueCapacity, ?_, hunmoved.tasks, hunmoved.active, hunmoved.outstanding⟩
        rw [← hunmoved.gate]
        funext q
        unfold Bulkhead.gate
        dsimp only
        by_cases hq : q = p
        · rw [hq, update_self]
        · rw [update_of_ne hq]
      · rw [if_neg hfull]
        have hqueue : (b₁.gate p).available < w → (b₁.gate p).isFull = false := by
          intro hlt
          rw [PermitGate.Gate.isFull, h₁.queue p]
          simpa [hlt] using hfull
        obtain ⟨hadmits, hp, hcounted, hinv, hrested⟩ :=
          acquire_admits (h₁.gate p) hw1 (not_lt.mp hcap) hqueue p signal
        right
        refine ⟨admitted p w signal (decide ((b₁.gate p).available < w))
            (PermitGate.acquire (b₁.gate p) (some w) signal).2,
          (PermitGate.acquire (b₁.gate p) (some w) signal).1, hunmoved.queueCapacity,
          ?_, ?_, ?_, ?_, ?_, hinv, ?_⟩
        · rw [hp, ← hunmoved.gate]
          exact gate_setGate b₁ p _
        · rw [← hunmoved.tasks]
        · rw [hcounted, ← hunmoved.active]
          by_cases hlt : (b₁.gate p).available < w <;> simp [hlt]
        · rw [← hunmoved.outstanding]
        · rw [hp, ← hunmoved.gate]
          exact hadmits
        · rw [hp, ← hunmoved.gate]
          exact hrested

theorem tryRun_cases (h : Sound capacity b) (key : Key) (weight : Option ℤ) :
    Unmoved b (tryRun b key weight).1 ∨ ∃ t g', Enters capacity b (tryRun b key weight).1 t g' := by
  unfold tryRun
  cases hw : assertLimitRequired weight "weight" "PowerBulkhead" 1 1 with
  | error e => exact Or.inl ⟨rfl, rfl, rfl, rfl, rfl⟩
  | ok w =>
    have hw1 : 1 ≤ w := assertLimitRequired_ge hw le_rfl
    have hunmoved := choosePartition_unmoved b key
    dsimp only
    generalize choosePartition b key = r at hunmoved ⊢
    obtain ⟨b₁, p⟩ := r
    dsimp only at hunmoved ⊢
    have hinv : PermitGate.Inv capacity capacity (b₁.gate p) := (hunmoved.sound h).gate p
    have hlimit : assertLimitRequired (some w) "weight" (b₁.gate p).className 1 1 = .ok w := by
      rw [assertLimitRequired, if_neg (by omega)]
    unfold PermitGate.tryAcquire
    rw [hlimit]
    dsimp only
    by_cases hfree : w ≤ (b₁.gate p).available
    · rw [if_pos hfree]
      right
      have hheld : (⟨p, w, none, false, true, .starting (b₁.gate p).nextLease, 0, false⟩ : Task).held p =
          some ((b₁.gate p).nextLease, w) := by
        simp [Task.held, Phase.lease]
      refine ⟨⟨p, w, none, false, true, .starting (b₁.gate p).nextLease, 0, false⟩,
        PermitGate.grant (b₁.gate p) w, hunmoved.queueCapacity, ?_, ?_, ?_, ?_, ?_, hinv.of_grant hw1 hfree, ?_⟩
      · rw [← hunmoved.gate]
        exact gate_setGate b₁ p _
      · rw [← hunmoved.tasks]
      · rw [← hunmoved.active]
        rfl
      · rw [← hunmoved.outstanding]
      · rw [← hunmoved.gate]
        exact admits_grant _ hheld rfl ⟨rfl, rfl⟩ rfl
      · exact fun _ => PermitGate.rested_grant hinv hw1
    · rw [if_neg hfree]
      exact Or.inl hunmoved

theorem resolveDrainWaitersIfIdle_unmoved (b : Bulkhead) : Unmoved b (resolveDrainWaitersIfIdle b) := by
  unfold resolveDrainWaitersIfIdle
  split <;> exact ⟨rfl, rfl, rfl, rfl, rfl⟩

theorem drain_unmoved (b : Bulkhead) : Unmoved b (drain b) := by
  unfold drain
  split <;> exact ⟨rfl, rfl, rfl, rfl, rfl⟩

theorem Sound.lease (h : Sound capacity b) {k l : ℕ} {t : Task} (hk : b.tasks[k]? = some t)
    (hphase : t.phase = .settled l) :
    ((b.gate t.partition).leases l).released = false ∧ l < (b.gate t.partition).nextLease ∧
      ((b.gate t.partition).leases l).weight = t.weight := by
  have hheld : t.held t.partition = some (l, t.weight) := by
    simp [Task.held, hphase, Phase.lease]
  have hmem : (l, t.weight) ∈ openLeases (b.gate t.partition) :=
    (h.books.held t.partition).subset (List.mem_filterMap.mpr ⟨t, List.mem_of_getElem? hk, hheld⟩)
  obtain ⟨hlt, hr, hw⟩ := PermitGate.mem_openLeases hmem
  exact ⟨hr, hlt, hw.symm⟩

theorem afterTask_gate (b : Bulkhead) (k : ℕ) (t : Task) (l : ℕ) : (afterTask b k t l).gate =
    update b.gate t.partition (PermitGate.callRelease (b.gate t.partition) l) := by
  unfold afterTask
  rw [(resolveDrainWaitersIfIdle_unmoved _).gate]
  exact gate_setGate (b.update k _) t.partition _

section
variable (h : Sound capacity b)
include h

theorem afterTask_sound {k l : ℕ} {t : Task} (hk : b.tasks[k]? = some t)
    (hphase : t.phase = .settled l) : Sound capacity (afterTask b k t l) := by
  obtain ⟨hr, hlt, hweight⟩ := h.lease hk hphase
  have hgate := h.gate t.partition
  have htask : t.Sound (b.gate t.partition).aborted := h.books.each t (List.mem_of_getElem? hk)
  rw [Task.Sound, hphase] at htask
  have hcounted : t.counted = true := by rw [Task.counted, hphase]
  have hunsettled : t.unsettled = true := by rw [Task.unsettled, hphase]; rfl
  have hactive := h.books.one_le_active (List.mem_of_getElem? hk) hcounted
  have houtstanding := h.books.one_le_outstanding (List.mem_of_getElem? hk) hunsettled
  let f : Task → Task := fun t => { t with phase := if t.direct then .done else .leaving }
  have hphase' : (f t).phase = .done ∨ (f t).phase = .leaving := by
    show (if t.direct then Phase.done else Phase.leaving) = _ ∨
      (if t.direct then Phase.done else Phase.leaving) = _
    cases t.direct
    · exact Or.inr rfl
    · exact Or.inl rfl
  -- the task gives its lease back, and then the queue is served
  have hmarked : Books (update b.gate t.partition (PermitGate.mark (b.gate t.partition) l))
      (b.tasks.modify k f) (max 0 (b.activeCount - 1))
      (if t.direct then max 0 (b.outstanding - 1) else b.outstanding) := by
    refine h.books.replace (PermitGate.mark (b.gate t.partition) l) hk rfl ?_ ?_ rfl rfl ?_ ?_ ?_
    · intro xs hxs
      have hheld : t.held t.partition = some (l, t.weight) := by
        simp [Task.held, hphase, Phase.lease]
      have hnone : (f t).held t.partition = none := by
        unfold Task.held
        rcases hphase' with hp | hp <;> rw [hp] <;> split <;> rfl
      have hmark := PermitGate.openOf_mark hr hlt
      rw [hweight] at hmark
      rw [hheld] at hxs
      rw [hnone]
      exact (hxs.trans hmark).cons_inv
    · rw [waited_of_entry (t := t) (by rw [hphase]; rfl)]
      exact waited_of_entry (by rcases hphase' with hp | hp <;> rw [hp] <;> rfl)
    · rcases hphase' with hp | hp <;> rw [Task.Sound, hp] <;> exact Or.inl htask
    · have hleft : (f t).counted = false := by
        rcases hphase' with hp | hp <;> rw [Task.counted, hp]
      rw [hcounted, hleft, max_eq_right (by omega)]
      simp
    · rw [hunsettled]
      cases hd : t.direct with
      | true =>
        have hdone : (f t).unsettled = false := by simp [f, Task.unsettled, hd]
        rw [hdone, if_pos rfl, max_eq_right (by omega)]
        simp
      | false =>
        have hleaving : (f t).unsettled = true := by simp [f, Task.unsettled, hd]
        rw [hleaving, if_neg (by simp)]
  have hbooks := hmarked.release hr hgate.waiter_nodup hgate.waiter_unsettled
  unfold afterTask
  refine (resolveDrainWaitersIfIdle_unmoved _).sound ⟨fun p => ?_, fun p => ?_, ?_⟩
  · show PermitGate.Inv capacity capacity (((b.update k f).setGate t.partition _).gate p)
    rw [gate_setGate]
    by_cases hp : p = t.partition
    · rw [hp, update_self]
      obtain ⟨-, -, -, -, -, hinv⟩ := PermitGate.callRelease_spec hgate hr
      exact hinv
    · rw [update_of_ne hp]
      exact h.gate p
  · show (((b.update k f).setGate t.partition _).gate p).queueCapacity = some b.queueCapacity
    rw [gate_setGate]
    by_cases hp : p = t.partition
    · rw [hp, update_self, PermitGate.callRelease_queueCapacity]
      exact h.queue t.partition
    · rw [update_of_ne hp]
      exact h.queue p
  · show Books ((b.update k f).setGate t.partition _).gate _ _ _
    rw [gate_setGate]
    exact hbooks

theorem Sound.move {k : ℕ} {t : Task} (hk : b.tasks[k]? = some t) (f : Task → Task)
    (hp : (f t).partition = t.partition) {a o : ℤ}
    (hheld : (f t).held t.partition = t.held t.partition)
    (hwaited : (f t).waited t.partition = t.waited t.partition)
    (hsound : t.Sound (b.gate t.partition).aborted → (f t).Sound (b.gate t.partition).aborted)
    (ha : b.activeCount + (f t).counted.toNat = a + t.counted.toNat)
    (ho : b.outstanding + (f t).unsettled.toNat = o + t.unsettled.toNat) :
    Sound capacity { b.update k f with activeCount := a, outstanding := o } :=
  ⟨h.gate, h.queue,
    h.books.move hk hp hheld hwaited (hsound (h.books.each t (List.mem_of_getElem? hk))) ha ho⟩

theorem settle_sound (k : ℕ) : Sound capacity (settle b k) := by
  unfold settle
  cases hk : b.tasks[k]? with
  | none => exact h
  | some t =>
    dsimp only
    cases hphase : t.phase with
    | running l =>
      refine h.move hk (fun t => { t with phase := .settled l }) rfl ?_ ?_ ?_ ?_ ?_
      · simp [Task.held, Phase.lease, hphase]
      · simp [Task.waited, Phase.entry, hphase]
      · simp [Task.Sound, hphase]
      · simp [Task.counted, hphase]
      · simp [Task.unsettled, hphase]
    | waiting i | granted l | refused | starting l | settled l | leaving | done => exact h

theorem callback_sound (k : ℕ) : Sound capacity (callback b k) := by
  unfold callback
  cases hk : b.tasks[k]? with
  | none => exact h
  | some t =>
    have hmem : t ∈ b.tasks := List.mem_of_getElem? hk
    dsimp only
    cases hphase : t.phase with
    | granted l =>
      refine h.move hk (fun t => { t with phase := .starting l }) rfl ?_ ?_ ?_ ?_ ?_
      · simp [Task.held, Phase.lease, hphase]
      · simp [Task.waited, Phase.entry, hphase]
      · simp [Task.Sound, hphase]
      · cases hq : t.willQueue <;> simp [Task.counted, hphase, hq]
      · simp [Task.unsettled, hphase, Bulkhead.update]
    | refused =>
      refine (resolveDrainWaitersIfIdle_unmoved _).sound
        (h.move hk (fun t => { t with phase := .leaving }) rfl ?_ ?_ ?_ ?_ ?_)
      · simp [Task.held, Phase.lease, hphase]
      · simp [Task.waited, Phase.entry, hphase]
      · intro hsound
        rw [Task.Sound, hphase] at hsound
        exact Or.inr hsound
      · cases hq : t.willQueue with
        | true => simp [Task.counted, hphase, hq]
        | false =>
          have hcounted : t.counted = true := by simp [Task.counted, hphase, hq]
          have hactive := h.books.one_le_active hmem hcounted
          rw [hcounted, if_neg (by simp), max_eq_right (by omega)]
          simp [Task.counted]
      · simp [Task.unsettled, hphase, Bulkhead.update]
    | starting l =>
      refine h.move hk (fun t => { t with phase := .running l, invocations := t.invocations + 1 }) rfl ?_ ?_ ?_ ?_ ?_
      · simp [Task.held, Phase.lease, hphase]
      · simp [Task.waited, Phase.entry, hphase]
      · simp [Task.Sound, hphase]
      · simp [Task.counted, hphase]
      · simp [Task.unsettled, hphase]
    | settled l => exact afterTask_sound h hk hphase
    | leaving =>
      refine (resolveDrainWaitersIfIdle_unmoved _).sound
        (h.move hk (fun t => { t with phase := .done }) rfl ?_ ?_ ?_ ?_ ?_)
      · simp [Task.held, Phase.lease, hphase]
      · simp [Task.waited, Phase.entry, hphase]
      · simp [Task.Sound, hphase]
      · simp [Task.counted, hphase, Bulkhead.update]
      · have hunsettled : t.unsettled = true := by simp [Task.unsettled, hphase]
        have houtstanding := h.books.one_le_outstanding hmem hunsettled
        rw [hunsettled, max_eq_right (by omega)]
        simp [Task.unsettled]
    | waiting i | running l | done => exact h

theorem abortIn_sound (signal p : ℕ) : Sound capacity (abortIn signal b p) := by
  unfold abortIn
  split
  · exact h
  · rename_i hab
    have hab : (b.gate p).aborted signal = false := by simpa using hab
    have hgate := h.gate p
    have hsame : Books (update b.gate p (b.gate p)) b.tasks b.activeCount b.outstanding := by
      rw [update_eq_self]
      exact h.books
    refine ⟨fun q => ?_, fun q => ?_, ?_⟩
    · show PermitGate.Inv capacity capacity ((b.setGate p _).gate q)
      rw [gate_setGate]
      by_cases hq : q = p
      · rw [hq, update_self]
        exact (PermitGate.abort_spec hgate hab).2.2
      · rw [update_of_ne hq]
        exact h.gate q
    · show ((b.setGate p _).gate q).queueCapacity = some b.queueCapacity
      rw [gate_setGate]
      by_cases hq : q = p
      · rw [hq, update_self, PermitGate.abort_queueCapacity]
        exact h.queue p
      · rw [update_of_ne hq]
        exact h.queue q
    · show Books (b.setGate p _).gate _ _ _
      rw [gate_setGate]
      exact hsame.abortIn hab hgate.waiter_unsettled

theorem abortIn_rested (hr : AllRested b) (signal p : ℕ) :
    AllRested (abortIn signal b p) := by
  unfold abortIn
  split
  · exact hr
  · intro q
    show Rested ((b.setGate p _).gate q)
    rw [gate_setGate]
    by_cases hq : q = p
    · rw [hq, update_self]
      exact PermitGate.rested_abort (h.gate p) (hr p) signal
    · rw [update_of_ne hq]
      exact hr q

end

theorem abort_keeps {P : Bulkhead → Prop} {signal : ℕ} (hstep : ∀ b p, P b → P (abortIn signal b p))
    (hb : P b) : P (abort b signal) :=
  List.foldlRecOn (motive := P) (List.range b.partitions) (abortIn signal) hb fun b hb p _ => hstep b p hb

theorem Sound.of_step (h : Sound capacity b) (e : Event) : Sound capacity (step b e) := by
  cases e with
  | run key weight signal =>
    rcases run_cases h key weight signal with hm | ⟨t, g', he⟩
    · exact hm.sound h
    · exact he.sound h
  | tryRun key weight =>
    rcases tryRun_cases h key weight with hm | ⟨t, g', he⟩
    · exact hm.sound h
    · exact he.sound h
  | settle k => exact settle_sound h k
  | callback k => exact callback_sound h k
  | abort signal => exact abort_keeps (fun b p hb => abortIn_sound hb signal p) h
  | drain => exact (drain_unmoved b).sound h

/-- A callback that gives nothing back leaves the gates alone. -/
theorem callback_gate (b : Bulkhead) (k : ℕ) :
    ((callback b k).gate = b.gate ∧ ∀ t l, b.tasks[k]? = some t → t.phase ≠ .settled l) ∨
      ∃ t l, b.tasks[k]? = some t ∧ t.phase = .settled l ∧ (callback b k).gate =
        update b.gate t.partition (PermitGate.callRelease (b.gate t.partition) l) := by
  unfold callback
  cases hk : b.tasks[k]? with
  | none => exact Or.inl ⟨rfl, fun t l h => (nomatch h)⟩
  | some t =>
    dsimp only
    cases hphase : t.phase with
    | settled l => exact Or.inr ⟨t, l, rfl, hphase, afterTask_gate b k t l⟩
    | refused | leaving =>
      refine Or.inl ⟨(resolveDrainWaitersIfIdle_unmoved _).gate, fun u l hu => ?_⟩
      rw [← Option.some.inj hu, hphase]
      exact fun h => (nomatch h)
    | granted l | starting l | waiting i | running l | done =>
      refine Or.inl ⟨rfl, fun u l hu => ?_⟩
      rw [← Option.some.inj hu, hphase]
      exact fun h => (nomatch h)

theorem allRested_step_iff (h : Sound capacity b) (hr : AllRested b) (e : Event) :
    AllRested (step b e) ↔ ¬Strands b e := by
  cases e with
  | run key weight signal =>
    refine iff_of_true ?_ id
    rcases run_cases h key weight signal with hm | ⟨t, g', he⟩
    · exact hm.rested hr
    · exact he.allRested hr
  | tryRun key weight =>
    refine iff_of_true ?_ id
    rcases tryRun_cases h key weight with hm | ⟨t, g', he⟩
    · exact hm.rested hr
    · exact he.allRested hr
  | settle k =>
    refine iff_of_true (fun p => ?_) id
    have hgate : (settle b k).gate = b.gate := by
      unfold settle
      split
      · rfl
      · split <;> rfl
    show Rested ((settle b k).gate p)
    rw [hgate]
    exact hr p
  | callback k =>
    rcases callback_gate b k with ⟨hsame, hnot⟩ | ⟨t, l, hk, hphase, hgate⟩
    · refine iff_of_true (fun p => ?_) fun ⟨t, l, hk, hphase, _⟩ => hnot t l hk hphase
      show Rested ((callback b k).gate p)
      rw [hsame]
      exact hr p
    · have hlast := PermitGate.release_rested_iff (h.gate t.partition) (h.lease hk hphase).1
      have hstrands : Strands b (.callback k) ↔ StrandsLast (b.gate t.partition) l := by
        refine ⟨?_, fun hs => ⟨t, l, hk, hphase, hs⟩⟩
        rintro ⟨u, m, hku, hphaseu, hs⟩
        obtain rfl : t = u := Option.some.inj (hk.symm.trans hku)
        obtain rfl : l = m := Phase.settled.inj (hphase.symm.trans hphaseu)
        exact hs
      rw [hstrands, ← hlast]
      constructor
      · intro hall
        have hp := hall t.partition
        rwa [step, hgate, update_self] at hp
      · intro hp q
        rw [step, hgate]
        by_cases hq : q = t.partition
        · rw [hq, update_self]
          exact hp
        · rw [update_of_ne hq]
          exact hr q
  | abort signal =>
    refine iff_of_true ?_ id
    have hboth := abort_keeps (P := fun b => Sound capacity b ∧ AllRested b)
      (fun b p hb => ⟨abortIn_sound hb.1 signal p, abortIn_rested hb.1 hb.2 signal p⟩) ⟨h, hr⟩
    exact hboth.2
  | drain => exact iff_of_true ((drain_unmoved b).rested hr) id

theorem resolved_step (b : Bulkhead) (e : Event) :
    (step b e).resolved = b.resolved ∨ (step b e).outstanding = 0 := by
  have hidle : ∀ b' : Bulkhead, (resolveDrainWaitersIfIdle b').resolved = b'.resolved ∨
      (resolveDrainWaitersIfIdle b').outstanding = 0 := by
    intro b'
    unfold resolveDrainWaitersIfIdle
    split
    · exact Or.inl rfl
    · rename_i hzero
      exact Or.inr (not_not.mp hzero)
  have hchoose : ∀ key, (choosePartition b key).1.resolved = b.resolved := by
    intro key
    unfold choosePartition
    split
    · rfl
    · split <;> rfl
  cases e with
  | run key weight signal =>
    refine Or.inl ?_
    show (run b key weight signal).1.resolved = b.resolved
    unfold run
    split
    · rfl
    · dsimp only
      split
      · exact hchoose key
      · split <;> exact hchoose key
  | tryRun key weight =>
    refine Or.inl ?_
    show (tryRun b key weight).1.resolved = b.resolved
    unfold tryRun
    split
    · rfl
    · dsimp only
      split <;> exact hchoose key
  | settle k =>
    refine Or.inl ?_
    show (settle b k).resolved = b.resolved
    unfold settle
    split
    · rfl
    · split <;> rfl
  | callback k =>
    unfold step callback
    dsimp only
    cases hk : b.tasks[k]? with
    | none => exact Or.inl rfl
    | some t =>
      dsimp only
      cases t.phase with
      | settled l | refused | leaving => exact hidle _
      | granted l | starting l | waiting i | running l | done => exact Or.inl rfl
  | abort signal =>
    refine Or.inl (abort_keeps (P := fun b' => b'.resolved = b.resolved) (fun b' p hb => ?_) rfl)
    unfold abortIn
    split <;> exact hb
  | drain =>
    show (drain b).resolved = b.resolved ∨ (drain b).outstanding = 0
    unfold drain
    split
    · exact Or.inr ‹_›
    · exact Or.inl rfl

/-! ## What the bulkhead promises -/

def Task.holds (t : Task) : Bool := t.phase.lease.isSome

def Task.isRunning (t : Task) : Bool :=
  match t.phase with
  | .running _ => true
  | _ => false

/-- No promise callback is to run. -/
def Quiet (b : Bulkhead) : Prop :=
  ∀ t ∈ b.tasks, t.isRunning = true ∨ t.phase = .done ∨ ∃ i, t.phase = .waiting i

/-- The accounts of a bulkhead.
  - `weight`: those that hold a permit in a partition, the running among them, weigh no more than
    `maxConcurrency`.
  - `once`: a task is called at most once, and never when it was turned away; it is turned away only
    when its signal aborted.
  - `active`: `_activeCount` is the tasks that are counted, which are the running ones whenever no
    callback is to run.
  - `unsettled`: `_outstanding` is the tasks whose promise has not settled.
  - `served`: with no permit of a partition held, each of its tasks was turned away or was called
    once. -/
structure Accounts (maxConcurrency : ℤ) (b : Bulkhead) : Prop where
  weight : ∀ p, ((b.tasks.filter fun t => t.partition == p && t.holds).map Task.weight).sum ≤ maxConcurrency
  once : ∀ t ∈ b.tasks, t.invocations ≤ 1 ∧ (t.aborted = true →
    t.invocations = 0 ∧ t.signal.any (b.gate t.partition).aborted = true)
  active : b.activeCount = b.tasks.countP Task.counted ∧
    (Quiet b → b.activeCount = b.tasks.countP Task.isRunning)
  unsettled : b.outstanding = b.tasks.countP Task.unsettled
  served : ∀ p, (∀ t ∈ b.tasks, t.partition = p → t.holds = false) →
    ∀ t ∈ b.tasks, t.partition = p → t.aborted = true ∨ t.invocations = 1

/-- A drain promise that the step resolves finds no task unsettled. -/
def ResolvesIdle (b : Bulkhead) (e : Event) : Prop :=
  (step b e).resolved ≠ b.resolved → ∀ t ∈ (step b e).tasks, t.phase = .done

theorem Sound.resolvesIdle (h : Sound capacity b) (e : Event) : ResolvesIdle b e := by
  intro hres t ht
  have hzero := (resolved_step b e).resolve_left hres
  have hcount := (h.of_step e).books.outstanding_eq
  rw [hzero] at hcount
  have hnone : (step b e).tasks.countP Task.unsettled = 0 := by omega
  have hdone := List.countP_eq_zero.mp hnone t ht
  simpa [Task.unsettled] using hdone

theorem weights_held (tasks : List Task) (p : ℕ) :
    (tasks.filter fun t => t.partition == p && t.holds).map Task.weight =
      (tasks.filterMap (Task.held p)).map Prod.snd := by
  induction tasks with
  | nil => rfl
  | cons t tasks ih =>
    by_cases hp : t.partition = p
    · cases hl : t.phase.lease with
      | none =>
        have hnone : t.held p = none := by simp [Task.held, hl]
        rw [List.filterMap_cons_none hnone, List.filter_cons_of_neg (by simp [Task.holds, hl]), ih]
      | some l =>
        have hsome : t.held p = some (l, t.weight) := by simp [Task.held, hl, hp]
        rw [List.filterMap_cons_some hsome, List.filter_cons_of_pos (by simp [Task.holds, hl, hp]),
          List.map_cons, List.map_cons, ih]
    · have hnone : t.held p = none := by simp [Task.held, hp]
      rw [List.filterMap_cons_none hnone, List.filter_cons_of_neg (by simp [hp]), ih]

theorem Sound.nothing_out_iff (h : Sound capacity b) (p : ℕ) :
    outstanding (b.gate p) = 0 ↔ ∀ t ∈ b.tasks, t.partition = p → t.holds = false := by
  have hperm := h.books.held p
  rw [← PermitGate.sum_openLeases, ← (hperm.map Prod.snd).sum_eq]
  constructor
  · intro hzero t ht hp
    by_contra hholds
    obtain ⟨l, hl⟩ : ∃ l, t.phase.lease = some l :=
      Option.isSome_iff_exists.mp (by rwa [Task.holds, Bool.not_eq_false] at hholds)
    have hheld : t.held p = some (l, t.weight) := by simp [Task.held, hl, hp]
    have hpos : ∀ x ∈ (b.tasks.filterMap (Task.held p)).map Prod.snd, 1 ≤ x := by
      intro x hx
      obtain ⟨y, hy, rfl⟩ := List.mem_map.mp hx
      obtain ⟨-, hr, hw⟩ := PermitGate.mem_openLeases (hperm.subset hy)
      rw [hw]
      exact ((h.gate p).lease_pos y.1 hr).2
    have hmem : t.weight ∈ (b.tasks.filterMap (Task.held p)).map Prod.snd :=
      List.mem_map.mpr ⟨(l, t.weight), List.mem_filterMap.mpr ⟨t, ht, hheld⟩, rfl⟩
    have hle : t.weight ≤ ((b.tasks.filterMap (Task.held p)).map Prod.snd).sum :=
      List.single_le_sum (fun x hx => le_trans zero_le_one (hpos x hx)) _ hmem
    have hone := hpos _ hmem
    omega
  · intro hnone
    have hempty : b.tasks.filterMap (Task.held p) = [] := by
      refine List.filterMap_eq_nil_iff.mpr fun t ht => ?_
      by_cases hp : t.partition = p
      · have hfree := hnone t ht hp
        have hl : t.phase.lease = none := by simpa [Task.holds] using hfree
        simp [Task.held, hl]
      · simp [Task.held, hp]
    rw [hempty]
    rfl

theorem countP_running (hq : Quiet b) :
    b.tasks.countP Task.counted = b.tasks.countP Task.isRunning := by
  refine List.countP_congr fun t ht => ?_
  rcases hq t ht with hrun | hdone | ⟨i, hwait⟩
  · cases hphase : t.phase <;> simp_all [Task.isRunning, Task.counted]
  · simp [Task.counted, Task.isRunning, hdone]
  · simp [Task.counted, Task.isRunning, hwait]

theorem Sound.accounts_iff (h : Sound capacity b) : Accounts capacity b ↔ AllRested b := by
  constructor
  · intro ha p hzero
    have hserved := ha.served p ((h.nothing_out_iff p).mp hzero)
    have hperm := h.books.waited p
    rw [← PermitGate.liveWaiters_weights]
    suffices hnone : liveWaiters (b.gate p) = [] by rw [hnone]; rfl
    refine List.eq_nil_iff_forall_not_mem.mpr fun x hx => ?_
    -- a task that waits was neither turned away nor called
    obtain ⟨t, ht, hw⟩ := List.mem_filterMap.mp (hperm.symm.subset hx)
    obtain ⟨hp, hphase⟩ := waiting_of_waited hw
    have hsound := h.books.each t ht
    rw [Task.Sound, hphase] at hsound
    rcases hserved t ht hp with hab | hone
    · rw [hsound.2.2] at hab
      cases hab
    · rw [hsound.2.1] at hone
      cases hone
  · intro hr
    refine ⟨fun p => ?_, fun t ht => ?_, ⟨h.books.active_eq, fun hq => ?_⟩, h.books.outstanding_eq,
      fun p hfree t ht hp => ?_⟩
    · have hweight : ((b.tasks.filter fun t => t.partition == p && t.holds).map Task.weight).sum =
          outstanding (b.gate p) := by
        rw [weights_held, ((h.books.held p).map Prod.snd).sum_eq, PermitGate.sum_openLeases]
      have hnonneg := (h.gate p).available_nonneg
      rw [hweight, PermitGate.outstanding_eq (h.gate p)]
      omega
    · have hsound := h.books.each t ht
      unfold Task.Sound at hsound
      split at hsound
      · exact ⟨by omega, fun hab => by simp_all⟩
      · exact ⟨by omega, fun hab => by simp_all⟩
      · exact ⟨by omega, fun hab => by simp_all⟩
      · exact ⟨by omega, fun hab => by simp_all⟩
      · exact ⟨by omega, fun hab => by simp_all⟩
      · exact ⟨by omega, fun hab => by simp_all⟩
      · exact ⟨by omega, fun hab => by simp_all⟩
      · exact ⟨by omega, fun hab => by simp_all⟩
    · rw [h.books.active_eq, countP_running hq]
    · have hzero := (h.nothing_out_iff p).mpr hfree
      have hnone : liveWaiters (b.gate p) = [] := by
        have hweights := hr p hzero
        rw [← PermitGate.liveWaiters_weights] at hweights
        exact List.map_eq_nil_iff.mp hweights
      have hholds := hfree t ht hp
      have hsound := h.books.each t ht
      unfold Task.Sound at hsound
      cases hphase : t.phase with
      | waiting i =>
        have hmem := (h.books.waited p).subset
          (List.mem_filterMap.mpr ⟨t, ht, waited_of_waiting hp hphase⟩)
        rw [hnone] at hmem
        cases hmem
      | granted l | starting l | running l | settled l =>
        rw [Task.holds, hphase] at hholds
        cases hholds
      | refused =>
        rw [hphase] at hsound
        exact Or.inl hsound.2.1
      | leaving | done =>
        rw [hphase] at hsound
        exact hsound.elim (fun hs => Or.inr hs.1) fun hs => Or.inl hs.2.1

end

theorem new_sound {o : Options} {b : Bulkhead} (hb : new o = .ok b) :
    Sound b.maxConcurrency b ∧ AllRested b := by
  unfold new at hb
  obtain ⟨partitions, hpartitions, hb⟩ := bind_eq_ok.mp hb
  obtain ⟨maxConcurrency, hmax, hb⟩ := bind_eq_ok.mp hb
  obtain ⟨queueCapacity, hqueue, hb⟩ := bind_eq_ok.mp hb
  obtain ⟨gate, hgate, hb⟩ := bind_eq_ok.mp hb
  cases hb
  obtain ⟨hinv, htokens, hwaiters⟩ := PermitGate.new_inv hgate
  obtain ⟨hcapacity, -⟩ := PermitGate.new_available hgate
  obtain ⟨hleases, hlimit⟩ := PermitGate.new_empty hgate
  have hcapacity : gate.capacity = maxConcurrency := hcapacity
  have hlive : liveWaiters gate = [] := by rw [liveWaiters, hwaiters]; rfl
  have hopen : openLeases gate = [] := by rw [openLeases, hleases]; rfl
  rw [htokens rfl, hcapacity] at hinv
  refine ⟨⟨fun _ => hinv, fun _ => hlimit queueCapacity rfl, ⟨fun _ => ?_, fun _ => ?_, fun t ht => ?_, rfl, rfl⟩⟩,
    fun _ _ => ?_⟩
  · exact List.Perm.of_eq hopen.symm
  · exact List.Perm.of_eq hlive.symm
  · cases ht
  · show liveWeights gate = []
    rw [← PermitGate.liveWaiters_weights, hlive]
    rfl

/-- **The accounts of a bulkhead.** In every run the accounts are right in every state, and a
`drain()` promise is resolved only when no task is unsettled, if and only if no callback gives the
last permit of a partition back while the first task that waits there is heavier than it. -/
theorem bulkhead_accounts {o : Options} {b : Bulkhead} (hb : new o = .ok b) (es : List Event) :
    (Always step (Accounts b.maxConcurrency) b es ∧ Meets step ResolvesIdle b es) ↔
      Meets step (fun b e => ¬Strands b e) b es := by
  obtain ⟨hsound, hrested⟩ := new_sound hb
  have hrun : Always step AllRested b es ↔ Meets step (fun b e => ¬Strands b e) b es :=
    always_iff_meets (Q := Sound b.maxConcurrency) (fun b e h => h.of_step e)
      (fun b e h hr => allRested_step_iff h hr e) hsound hrested
  have hall : Always step (Sound b.maxConcurrency) b es :=
    always_of_step (fun b e h => h.of_step e) hsound es
  have hdrain : Meets step ResolvesIdle b es :=
    meets_of_step (P := Sound b.maxConcurrency) (fun b e h => h.of_step e)
      (fun b e h => h.resolvesIdle e) hsound es
  rw [← hrun]
  constructor
  · rintro ⟨haccounts, -⟩
    exact (haccounts.and hall).mono fun b hs => hs.2.accounts_iff.mp hs.1
  · intro hr
    exact ⟨(hr.and hall).mono fun b hs => hs.2.accounts_iff.mpr hs.1, hdrain⟩

/-- A task of two of three permits, one for three behind it that is aborted, one for two that takes
the first one's permits over, one that does not queue, and a drain. -/
theorem bulkhead_accounts_handover : ∃ b, new { partitions := some 1, maxConcurrency := some 3 } = .ok b ∧
    let es : List Event :=
      [.run {} (some 2) none, .run {} (some 3) (some 0), .run {} (some 2) none, .tryRun {} none,
        .callback 0, .callback 0, .abort 0, .callback 3, .drain, .settle 0, .callback 0, .callback 2,
        .callback 1, .callback 2, .callback 1, .settle 2, .callback 2, .settle 3, .callback 3, .callback 2,
        .callback 0]
    (Always step (Accounts b.maxConcurrency) b es ∧ Meets step ResolvesIdle b es) ∧
      (PerformanceHelpers.run step b es).resolved = [0] := by
  refine ⟨_, rfl, ?_⟩
  intro es
  exact ⟨(bulkhead_accounts (o := { partitions := some 1, maxConcurrency := some 3 }) rfl es).mpr
    (by decide +kernel), by decide +kernel⟩

/-- Two tasks of one permit each, and a task for both behind them: the second release is of the last
permit, and the task it leaves is never called. The drain goes on waiting for it. -/
theorem stranded_by_the_last : ∃ b, new { partitions := some 1, maxConcurrency := some 2 } = .ok b ∧
    let es : List Event :=
      [.run {} none none, .run {} none none, .run {} (some 2) none, .drain,
        .callback 0, .callback 0, .callback 1, .callback 1, .settle 0, .callback 0, .callback 0,
        .settle 1, .callback 1, .callback 1]
    ¬Always step (Accounts b.maxConcurrency) b es ∧
      (PerformanceHelpers.run step b es).drainWaiters = [0] := by
  refine ⟨_, rfl, ?_⟩
  intro es
  refine ⟨fun h => ?_, by decide +kernel⟩
  have hserved := h.last.served 0 (by decide +kernel)
  revert hserved
  decide +kernel

end PerformanceHelpers.PowerBulkhead
