import PerformanceHelpers.PermitGate

/- Who holds and who waits at a `PowerPermitGate`, as lists for a caller to match with its
   own records.

   What is proved:
     1. `serve_rule` — what is kept by compacting a cancelled waiter and by serving a live one is
        kept by serving the queue, each waiter that was served being told its lease in turn.
     2. `release_rested_iff` — the release of the last lease leaves nobody waiting exactly when
        the first live waiter fits in what it gives back. -/
namespace PerformanceHelpers.PermitGate
open Function (update update_of_ne update_self)

/-- The leases that are out among the first `n`, with their weights. -/
def openOf (leases : ℕ → Lease) (n : ℕ) : List (ℕ × ℤ) :=
  (List.range n).filterMap fun i => if (leases i).released then none else some (i, (leases i).weight)

def openLeases (g : Gate) : List (ℕ × ℤ) := openOf g.leases g.nextLease

def liveWaiters (g : Gate) : List (ℕ × ℤ × Option ℕ) :=
  (g.waiters.filter fun i => !(g.entries i).cancelled).map
    fun i => (i, (g.entries i).weight, (g.entries i).signal)

/-- The waiters a call has served, with their leases: `_serveWaiters` resolves them in queue
order, each with the next lease. -/
def grants (g g' : Gate) : List (ℕ × ℕ) :=
  (g.waiters.filter fun i => (g'.entries i).settled).zipIdx g.nextLease

section
variable {g : Gate}

theorem liveWaiters_weights (g : Gate) : ((liveWaiters g).map fun x => x.2.1) = liveWeights g := by
  unfold liveWaiters liveWeights weightsOf
  rw [List.map_map]
  rfl

theorem openOf_succ (leases : ℕ → Lease) (n : ℕ) :
    openOf leases (n + 1) =
      openOf leases n ++ if (leases n).released then [] else [(n, (leases n).weight)] := by
  unfold openOf
  rw [List.range_succ, List.filterMap_append]
  congr 1
  cases hr : (leases n).released <;> simp [hr]

theorem openOf_congr {leases leases' : ℕ → Lease} {n : ℕ} (h : ∀ i < n, leases i = leases' i) :
    openOf leases n = openOf leases' n :=
  List.filterMap_congr fun i hi => by rw [h i (List.mem_range.mp hi)]

theorem sum_openLeases (g : Gate) : ((openLeases g).map Prod.snd).sum = outstanding g := by
  unfold openLeases outstanding unitsOf
  induction g.nextLease with
  | zero => rfl
  | succ n ih =>
    rw [openOf_succ, List.map_append, List.sum_append, ih, Finset.sum_range_succ]
    congr 1
    cases hr : (g.leases n).released <;> simp [Lease.units, hr]

theorem openLeases_makeRelease (g : Gate) (w : ℤ) :
    openLeases (makeRelease g w) = openLeases g ++ [(g.nextLease, w)] := by
  show openOf (update g.leases g.nextLease ⟨w, false⟩) (g.nextLease + 1) = _
  rw [openOf_succ, openOf_congr fun i hi => update_of_ne hi.ne _ _]
  simp [openLeases]

theorem openOf_mark {leases : ℕ → Lease} {l : ℕ} (hr : (leases l).released = false) {n : ℕ} (hl : l < n) :
    (openOf leases n).Perm ((l, (leases l).weight) ::
      openOf (update leases l { leases l with released := true }) n) := by
  induction n with
  | zero => exact absurd hl (Nat.not_lt_zero l)
  | succ n ih =>
    rw [openOf_succ, openOf_succ]
    rcases Nat.lt_succ_iff_lt_or_eq.mp hl with hl | rfl
    · rw [update_of_ne hl.ne', ← List.cons_append]
      exact (ih hl).append_right _
    · have hrest : openOf (update leases l { leases l with released := true }) l = openOf leases l :=
        openOf_congr fun i hi => update_of_ne hi.ne _ _
      rw [hrest, update_self]
      simp only [hr, Bool.false_eq_true, if_false, if_true, List.append_nil]
      exact List.perm_append_singleton _ _

/-! ## Serving the queue -/

section
variable {i : ℕ} {rest : List ℕ}

theorem liveWaiters_compact (hq : g.waiters = i :: rest) (hc : (g.entries i).cancelled = true) (c : ℤ) :
    liveWaiters { g with cancelledWaiters := c, waiters := rest } = liveWaiters g := by
  simp [liveWaiters, hq, hc]

theorem liveWaiters_serveHead (hq : g.waiters = i :: rest) (hn : (i :: rest).Nodup)
    (hc : (g.entries i).cancelled = false) :
    liveWaiters g =
      (i, (g.entries i).weight, (g.entries i).signal) :: liveWaiters (serveHead g i rest false) := by
  have hold : ∀ j ∈ rest, (serveHead g i rest false).entries j = g.entries j := by
    intro j hj
    apply serveHead_entries
    exact fun h => (List.nodup_cons.mp hn).1 (h ▸ hj)
  unfold liveWaiters
  rw [serveHead_waiters, hq, List.filter_cons_of_pos (by simp [hc]), List.map_cons]
  congr 1
  have hlive : (rest.filter fun j => !((serveHead g i rest false).entries j).cancelled) =
      rest.filter fun j => !(g.entries j).cancelled :=
    List.filter_congr fun j hj => by rw [hold j hj]
  rw [hlive]
  exact List.map_congr_left fun j hj => by rw [hold j (List.mem_filter.mp hj).1]

theorem openLeases_serveHead :
    openLeases (serveHead g i rest false) = openLeases g ++ [(g.nextLease, (g.entries i).weight)] := by
  have h := openLeases_makeRelease g (g.entries i).weight
  rw [← h]
  unfold openLeases
  rw [serveHead_leases]
  rfl

end

theorem serveLoop_entries (permits : ℤ) : ∀ (ws : List ℕ) (g : Gate) (served : ℤ) (j : ℕ), j ∉ ws →
    (serveLoop permits false g served ws).1.entries j = g.entries j := by
  intro ws
  induction ws with
  | nil => exact fun g served j _ => rfl
  | cons i rest ih =>
    intro g served j hj
    obtain ⟨hne, hrest⟩ := not_or.mp (List.mem_cons.not.mp hj)
    simp only [serveLoop]
    split_ifs with hlt hc hw
    · exact ih _ served j hrest
    · rfl
    · rw [ih _ _ j hrest, serveHead_entries g i rest hne]
    · rfl

theorem serveHead_settled (g : Gate) (i : ℕ) (rest : List ℕ) :
    ((serveHead g i rest false).entries i).settled = true := by
  simp [serveHead, grantTo, detach, makeRelease]

/-- **The rule of serving.** `R` is between the gate and what its caller has noted: it is kept
when a cancelled head is compacted out, and when a live head is served and its caller told. -/
theorem serve_rule {α : Type} {R : Gate → α → Prop} (tell : α → ℕ × ℕ → α) (permits : ℤ)
    (hcompact : ∀ g i rest a c, g.waiters = i :: rest → (g.entries i).cancelled = true → R g a →
      R { g with cancelledWaiters := c, waiters := rest } a)
    (hserve : ∀ g i rest a, g.waiters = i :: rest → (i :: rest).Nodup →
      (g.entries i).cancelled = false → R g a →
      R (serveHead g i rest false) (tell a (i, g.nextLease))) :
    ∀ (ws : List ℕ) (g : Gate) (served : ℤ) (a : α), g.waiters = ws → ws.Nodup →
      (∀ i ∈ ws, (g.entries i).settled = false) → R g a →
      R (serveLoop permits false g served ws).1
        ((grants g (serveLoop permits false g served ws).1).foldl tell a) := by
  intro ws
  induction ws with
  | nil =>
    intro g served a hq _ _ hR
    rw [grants, hq]
    exact hR
  | cons i rest ih =>
    intro g served a hq hn hs hR
    obtain ⟨hi, hrest⟩ := List.nodup_cons.mp hn
    have hstop : R g ((grants g g).foldl tell a) := by
      have hnone : (g.waiters.filter fun j => (g.entries j).settled) = [] :=
        List.filter_eq_nil_iff.mpr fun j hj => by simp [hs j (hq ▸ hj)]
      rw [grants, hnone]
      exact hR
    simp only [serveLoop]
    split_ifs with hlt hc hw
    · have hgrants := ih { g with cancelledWaiters := max 0 (g.cancelledWaiters - 1), waiters := rest } served a
        rfl hrest (fun j hj => hs j (List.mem_cons_of_mem i hj))
        (hcompact g i rest a _ hq hc hR)
      generalize hg : serveLoop permits false
        { g with cancelledWaiters := max 0 (g.cancelledWaiters - 1), waiters := rest } served rest = r at hgrants ⊢
      -- the compacted waiter was not served
      have hent : (r.1.entries i).settled = false := by
        rw [← hg, serveLoop_entries permits rest _ served i hi]
        exact hs i List.mem_cons_self
      have hsame : grants g r.1 =
          grants { g with cancelledWaiters := max 0 (g.cancelledWaiters - 1), waiters := rest } r.1 := by
        unfold grants
        rw [hq, List.filter_cons_of_neg (by simp [hent])]
      rw [hsame]
      exact hgrants
    · exact hstop
    · have hgrants := ih (serveHead g i rest false) (served + (g.entries i).weight)
        (tell a (i, g.nextLease)) (serveHead_waiters g i rest false) hrest
        (fun j hj => by
          rw [serveHead_entries g i rest fun h => hi (h ▸ hj)]
          exact hs j (List.mem_cons_of_mem i hj))
        (hserve g i rest a hq hn (by simpa using hc) hR)
      generalize hg : serveLoop permits false (serveHead g i rest false)
        (served + (g.entries i).weight) rest = r at hgrants ⊢
      have hent : (r.1.entries i).settled = true := by
        rw [← hg, serveLoop_entries permits rest _ _ i hi]
        exact serveHead_settled g i rest
      have hsame : grants g r.1 =
          (i, g.nextLease) :: grants (serveHead g i rest false) r.1 := by
        unfold grants
        rw [hq, serveHead_waiters, List.filter_cons, if_pos hent, List.zipIdx_cons]
        rfl
      rw [hsame]
      exact hgrants
    · exact hstop

def mark (g : Gate) (l : ℕ) : Gate :=
  { g with leases := Function.update g.leases l { g.leases l with released := true } }

/-- A release callback marks its lease and serves the queue; what it puts back changes the
counters only. -/
theorem callRelease_serves {l : ℕ} (hr : (g.leases l).released = false) :
    ∃ permits available held, callRelease g l =
      { (serveLoop permits false (mark g l) 0 g.waiters).1 with available, held } := by
  unfold callRelease
  rw [if_neg (by simp [hr])]
  exact ⟨_, _, _, rfl⟩

theorem serveLoop_queueCapacity (permits : ℤ) : ∀ (ws : List ℕ) (g : Gate) (served : ℤ),
    (serveLoop permits false g served ws).1.queueCapacity = g.queueCapacity := by
  intro ws
  induction ws with
  | nil => exact fun g served => rfl
  | cons i rest ih =>
    intro g served
    simp only [serveLoop]
    split_ifs with hlt hc hw
    · exact ih _ served
    · rfl
    · exact ih (serveHead g i rest false) _
    · rfl

theorem callRelease_queueCapacity (g : Gate) (l : ℕ) : (callRelease g l).queueCapacity = g.queueCapacity := by
  cases hr : (g.leases l).released with
  | true => rw [callRelease, if_pos hr]
  | false =>
    obtain ⟨permits, available, held, hcall⟩ := callRelease_serves hr
    rw [hcall]
    exact serveLoop_queueCapacity permits g.waiters (mark g l) 0

theorem abort_queueCapacity (g : Gate) (signal : ℕ) : (abort g signal).queueCapacity = g.queueCapacity := by
  unfold abort
  split
  · rfl
  · obtain ⟨c, hsame⟩ := foldl_onAbort_same (listeners g signal)
      { g with aborted := update g.aborted signal true }
    rw [hsame]

theorem mem_openLeases {x : ℕ × ℤ} (hx : x ∈ openLeases g) :
    x.1 < g.nextLease ∧ (g.leases x.1).released = false ∧ x.2 = (g.leases x.1).weight := by
  obtain ⟨i, hi, hx⟩ := List.mem_filterMap.mp hx
  split at hx
  · cases hx
  · rename_i hr
    cases hx
    exact ⟨List.mem_range.mp hi, by simpa using hr, rfl⟩

theorem liveWaiters_enqueue (hlt : ∀ i ∈ g.waiters, i < g.nextEntry) (w : ℤ) (signal : Option ℕ) :
    liveWaiters (enqueue g w signal) = liveWaiters g ++ [(g.nextEntry, w, signal)] := by
  have hold : ∀ i ∈ g.waiters, (enqueue g w signal).entries i = g.entries i :=
    fun i hi => update_of_ne (hlt i hi).ne _ _
  have hnew : (enqueue g w signal).entries g.nextEntry = ⟨w, signal, signal.isSome, false, false⟩ :=
    update_self ..
  have hlive : (g.waiters.filter fun i => !((enqueue g w signal).entries i).cancelled) =
      g.waiters.filter fun i => !(g.entries i).cancelled :=
    List.filter_congr fun i hi => by rw [hold i hi]
  unfold liveWaiters
  show ((g.waiters ++ [g.nextEntry]).filter _).map _ = _
  rw [List.filter_append, hlive, List.map_append, List.filter_cons_of_pos (by rw [hnew]; rfl)]
  congr 1
  · exact List.map_congr_left fun i hi => by rw [hold i (List.mem_filter.mp hi).1]
  · rw [List.filter_nil, List.map_cons, hnew]
    rfl

/-! ## Aborts -/

theorem onAbort_keeps (g : Gate) (i j : ℕ) :
    ((onAbort g i).entries j).weight = (g.entries j).weight ∧
      ((onAbort g i).entries j).signal = (g.entries j).signal ∧
      ((onAbort g i).entries j).settled = (g.entries j).settled := by
  rw [onAbort_entries]
  by_cases hji : j = i
  · subst hji
    rw [update_self]
    unfold Entry.cancel
    split <;> exact ⟨rfl, rfl, rfl⟩
  · rw [update_of_ne hji]
    exact ⟨rfl, rfl, rfl⟩

theorem liveWaiters_onAbort (hs : ∀ j ∈ g.waiters, (g.entries j).settled = false) (i : ℕ) :
    liveWaiters (onAbort g i) = (liveWaiters g).filter fun x => decide (x.1 ≠ i) := by
  have hq : (onAbort g i).waiters = g.waiters := by
    unfold onAbort
    split <;> rfl
  have hlive : ∀ j ∈ g.waiters, (!((onAbort g i).entries j).cancelled) =
      (decide (j ≠ i) && !(g.entries j).cancelled) := by
    intro j hj
    rw [onAbort_entries]
    by_cases hji : j = i
    · subst hji
      cases hc : (g.entries j).cancelled <;> simp [Entry.cancel, hc, hs j hj]
    · simp [hji]
  unfold liveWaiters
  rw [hq, List.filter_map, List.filter_filter, List.filter_congr hlive]
  exact List.map_congr_left fun j _ => by rw [(onAbort_keeps g i j).1, (onAbort_keeps g i j).2.1]

/-! ## A gate at rest -/

/-- A new gate has handed nothing out, and keeps the queue it was told to. -/
theorem new_empty {o : Options} (h : new o = .ok g) :
    g.nextLease = 0 ∧ ∀ q, o.queueCapacity = some q → g.queueCapacity = some q := by
  unfold new at h
  obtain ⟨capacity, -, h⟩ := bind_eq_ok.mp h
  obtain ⟨queueCapacity, hqueue, h⟩ := bind_eq_ok.mp h
  obtain ⟨tokens, -, h⟩ := bind_eq_ok.mp h
  cases h
  refine ⟨rfl, fun q hq => ?_⟩
  rw [← hq]
  exact optionalLimit_eq hqueue

def Rested (g : Gate) : Prop := outstanding g = 0 → liveWeights g = []

def StrandsLast (g : Gate) (l : ℕ) : Prop :=
  outstanding g = (g.leases l).weight ∧ ∃ w ∈ (liveWeights g).head?, (g.leases l).weight < w

instance (g : Gate) (l : ℕ) : Decidable (StrandsLast g l) :=
  inferInstanceAs (Decidable (_ ∧ ∃ w ∈ (liveWeights g).head?, (g.leases l).weight < w))

variable {capacity : ℤ}

section
variable (h : Inv capacity capacity g)
include h

theorem outstanding_eq : outstanding g = capacity - g.available := by
  have hbalance := h.balance
  have hheld := h.held_eq
  omega

theorem rested_grant {w : ℤ} (hw : 1 ≤ w) : Rested (grant g w) := by
  intro hzero
  have hnonneg : 0 ≤ outstanding g := outstanding_nonneg h.lease_pos
  have hout : outstanding (grant g w) = outstanding g + w :=
    outstanding_makeRelease { g with available := g.available - w, held := g.held + w } w
  omega

theorem rested_enqueue {w : ℤ} (hlt : g.available < w) (hw : w ≤ g.capacity)
    (signal : Option ℕ) : Rested (enqueue g w signal) := by
  intro hzero
  have hout : outstanding g = capacity - g.available := outstanding_eq h
  have hcap : g.capacity = capacity := h.capacity_eq
  have hsame : outstanding (enqueue g w signal) = outstanding g := rfl
  omega

theorem rested_abort (hrest : Rested g) (signal : ℕ) :
    Rested (abort g signal) := by
  cases ha : g.aborted signal with
  | true => simpa [abort, ha] using hrest
  | false =>
    obtain ⟨hlive, havailable, h'⟩ := abort_spec h ha
    intro hzero
    have hnone : liveWeights g = [] := by
      apply hrest
      rw [outstanding_eq h, ← havailable, ← outstanding_eq h', hzero]
    have hsub : List.Sublist (weightsOf g.entries (notOn g signal)) (liveWeights g) :=
      ((List.filter_sublist (l := g.waiters)).filter _).map _
    rw [hlive]
    exact List.sublist_nil.mp (hnone ▸ hsub)

/-- **The last lease.** A release leaves nobody waiting at a gate that nobody holds exactly when
it does not strand the first waiter. -/
theorem release_rested_iff {l : ℕ} (hr : (g.leases l).released = false) :
    Rested (callRelease g l) ↔ ¬StrandsLast g l := by
  obtain ⟨pre, hlive, hle, havailable, hblocked, h'⟩ := callRelease_spec h hr
  obtain ⟨hl, hweight⟩ := h.lease_pos l hr
  have hout : outstanding g = capacity - g.available := outstanding_eq h
  have hout' : outstanding (callRelease g l) = capacity - (callRelease g l).available := outstanding_eq h'
  have hpos : ∀ x ∈ liveWeights g, 1 ≤ x := by
    intro x hx
    obtain ⟨j, hj, -, rfl⟩ := mem_weightsOf hx
    exact (h.waiter_fits j hj).1
  -- the lease is one of those that are out
  have hleast : (g.leases l).weight ≤ outstanding g := by
    have hmark := openOf_mark hr hl
    have hsum := (hmark.map Prod.snd).sum_eq
    have hrest : 0 ≤ outstanding (mark g l) := by
      apply outstanding_nonneg
      intro j hj
      by_cases hjl : j = l
      · subst hjl
        simp [mark] at hj
      · simp only [mark, update_of_ne hjl] at hj ⊢
        exact h.lease_pos j hj
    rw [← sum_openLeases] at hrest ⊢
    have hsum : ((openLeases g).map Prod.snd).sum =
        (g.leases l).weight + ((openLeases (mark g l)).map Prod.snd).sum := by
      rw [← List.sum_cons]
      exact hsum
    omega
  constructor
  · rintro hrest ⟨hlast, w, hw, hlt⟩
    cases pre with
    | nil =>
      rw [List.nil_append] at hlive
      have hzero : outstanding (callRelease g l) = 0 := by
        rw [List.sum_nil] at havailable
        omega
      rw [hlive, hrest hzero] at hw
      cases hw
    | cons x pre =>
      rw [hlive] at hw
      obtain rfl : x = w := Option.some.inj hw
      have hnonneg : 0 ≤ pre.sum := List.sum_nonneg fun y hy => by
        have := hpos y (by rw [hlive]; simp [hy])
        omega
      rw [List.sum_cons] at hle
      omega
  · intro hno hzero
    have hnone : pre = [] := by
      cases pre with
      | nil => rfl
      | cons x pre =>
        have hx : 1 ≤ x := hpos x (by rw [hlive]; simp)
        have hnonneg : 0 ≤ pre.sum := List.sum_nonneg fun y hy => by
          have := hpos y (by rw [hlive]; simp [hy])
          omega
        rw [List.sum_cons] at havailable
        omega
    subst hnone
    rw [List.sum_nil] at havailable hblocked
    rw [List.nil_append] at hlive
    cases hhead : liveWeights (callRelease g l) with
    | nil => rfl
    | cons w ws =>
      have hlt := hblocked w (by rw [hhead]; rfl)
      refine absurd ⟨by omega, w, ?_, by omega⟩ hno
      rw [hlive, hhead]
      rfl

end

end

end PerformanceHelpers.PermitGate
