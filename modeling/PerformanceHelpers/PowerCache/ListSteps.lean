import PerformanceHelpers.PowerCache.ListCalls

/- Runs of a cache of one list.

   Every call is a row of moves: the loops of the evictions end because each turn
   takes a node out of the list, or a mark off one, and the others stop at the end of
   what they walk over. -/
namespace PerformanceHelpers.PowerCache
open Function (update update_of_ne update_self)

variable {K V : Type} [DecidableEq K] {c c' : Cache K V} {xs xs' l r : List ℕ}
  {ms ms' : List (Mark K)} {i : ℕ} {k : K} {m : Mark K} {v : V} {w x now : ℚ}

def Evictions (ms : List (Mark K)) : Prop := ∀ m ∈ ms, ∃ k, m = .evicted k

section
omit [DecidableEq K]

theorem Evictions.nil : Evictions ([] : List (Mark K)) := by simp [Evictions]

theorem Evictions.cons (h : Evictions ms) (k : K) : Evictions (.evicted k :: ms) := by
  intro m hm
  rcases List.mem_cons.mp hm with rfl | hm
  · exact ⟨k, rfl⟩
  · exact h m hm

theorem Evictions.leaves (h : Evictions ms) : ∀ m ∈ ms, m.leaves := by
  intro m hm
  obtain ⟨k, rfl⟩ := h m hm
  rfl

end

/-! ## Victims -/

section
omit [DecidableEq K]

namespace Ready

theorem victim_mem (h : Ready c xs) (hi : victim c = some i) : i ∈ xs := by
  rw [victim, Option.orElse_eq_orElse, Option.orElse_eq_or, Option.or_eq_some_iff] at hi
  rcases hi with hi | ⟨-, hi⟩
  · exact h.parked i hi
  · exact List.mem_of_head? (h.linked.head_eq.symm.trans hi)

theorem victim_none (h : Ready c xs) (hi : victim c = none) : xs = [] := by
  rw [victim, Option.orElse_eq_orElse, Option.orElse_eq_or, Option.or_eq_none_iff] at hi
  exact h.linked.head_none_iff.mp hi.2

theorem victim_head (h : Ready c xs) (hsteady : Steady c.toConfig) : victim c = xs.head? := by
  rw [victim, h.headed hsteady, h.linked.head_eq]
  cases xs.head? <;> rfl

theorem first (h : Ready c (l ++ i :: r)) (hi : (l ++ i :: r).head? = some i) : l = [] := by
  cases l with
  | nil => rfl
  | cons j l =>
    have hji : j = i := by simpa using hi
    have hnot := h.toListed.notMem
    simp [hji] at hnot

theorem victim_first (h : Ready c (l ++ i :: r)) (hi : victim c = some i) :
    Steady c.toConfig → l = [] := by
  intro hsteady
  exact h.first ((h.victim_head hsteady).symm.trans hi)

theorem candidate_first (h : Ready c (l ++ i :: r)) (hsteady : Steady c.toConfig)
    (hi : c.evictionCandidate = some i) : l = [] :=
  h.first ((h.headed hsteady).symm.trans hi)

end Ready

theorem walk_subset {L : Links ℕ} {e : Ends ℕ} (h : Linked L e xs) (hi : i ∈ xs) (n : ℕ) :
    walk L.next n (some i) ⊆ xs := by
  induction n generalizing i with
  | zero => simp [walk]
  | succ n ih =>
    rw [walk, List.cons_subset]
    refine ⟨hi, ?_⟩
    cases hn : L.next i with
    | none => cases n <;> simp [walk]
    | some j => exact ih (h.next_mem hi hn)

theorem foldl_scanCost_mem {hook : ℕ → Option K → Option V → Cost} {nodes : List ℕ}
    {acc : ℕ × WithBot (WithTop ℚ) × ℕ} (hacc : acc.1 ∈ xs) (hnodes : nodes ⊆ xs) :
    (nodes.foldl (scanCost c hook) acc).1 ∈ xs := by
  induction nodes generalizing acc with
  | nil => exact hacc
  | cons j nodes ih =>
    obtain ⟨hj, hnodes⟩ := List.cons_subset.mp hnodes
    refine ih ?_ hnodes
    obtain ⟨best, bestCost, calls⟩ := acc
    simp only [scanCost]
    split
    · exact hacc
    · split
      · exact hj
      · exact hacc

/-- What is evicted next is in the list, and there is nothing else to find. -/
theorem nextVictim_spec (h : Ready c xs) : ∃ n o, nextVictim c = ({ c with missCostCalls := n }, o) ∧
    (∀ i ∈ o, i ∈ xs) ∧ (o = none → xs = []) ∧ (c.missCost = none → o = victim c) := by
  cases hcost : c.missCost with
  | none =>
    refine ⟨c.missCostCalls, victim c, nextVictim_plain hcost, fun i hi => h.victim_mem hi,
      h.victim_none, fun _ => rfl⟩
  | some hook =>
    rw [nextVictim, hcost]
    simp only [cheapestEvictionCandidate]
    cases hv : victim c with
    | none => exact ⟨c.missCostCalls, none, rfl, by simp, fun _ => h.victim_none hv, by simp⟩
    | some i =>
      refine ⟨_, _, rfl, fun j hj => ?_, by simp, by simp⟩
      obtain rfl := Option.some.inj hj
      exact foldl_scanCost_mem (h.victim_mem hv) (walk_subset h.linked (h.victim_mem hv) _)

end

theorem unlinkNode_visited {advance : Bool} : (unlinkNode c i advance).visited = c.visited := by
  cases hp : c.policy <;> cases hq : c.queue i <;>
    simp only [unlinkNode, remove, dropRefs, hp, hq] <;> rfl

/-! ## The loops -/

def Done (c : Cache K V) (xs : List ℕ) : Prop := overLimit c c.map.size = false ∨ xs = []

namespace Ready

protected theorem evictLoop (h : Ready c xs) (turns : ℕ) (hpol : c.policy ≠ .sieve) :
    ∃ ms xs', Goes c xs ms (evictLoop turns c) xs' ∧ Evictions ms ∧
      (xs.length ≤ turns → Done (evictLoop turns c) xs') := by
  induction turns generalizing c xs with
  | zero =>
    exact ⟨[], xs, .refl h, .nil, fun hle => Or.inr (List.length_eq_zero_iff.mp (Nat.le_zero.mp hle))⟩
  | succ turns ih =>
    rw [evictLoop]
    split
    · obtain ⟨n, o, hnext, hmem, hnone, hplain⟩ := nextVictim_spec h
      rw [hnext]
      have hcalls : Goes c xs [] { c with missCostCalls := n } xs := h.quiet rfl rfl rfl rfl rfl
      cases o with
      | none => exact ⟨[], xs, hcalls, .nil, fun _ => Or.inr (hnone rfl)⟩
      | some i =>
        obtain ⟨l, r, k, rfl, hk⟩ := h.keyed_split (hmem i rfl)
        have hvictim : c.missCost = none → victim c = some i := fun hcost => (hplain hcost).symm
        have hevict := hcalls.ready.evictNode hk fun hsteady => by
          rcases hsteady with hsieve | hcost
          · exact absurd hsieve hpol
          · exact h.victim_first (hvictim hcost.1) (Or.inr hcost)
        have hconfig := hevict.moves.config hcalls.ready.toListed
        obtain ⟨ms, xs', hgoes, hms, hdone⟩ := ih hevict.ready (by rw [hconfig]; exact hpol)
        refine ⟨_, xs', (hcalls.trans hevict).trans hgoes, hms.cons k, fun hle => hdone ?_⟩
        simp only [List.length_append, List.length_cons] at hle ⊢
        omega
    · next hover => exact ⟨[], xs, .refl h, .nil, fun _ => Or.inl (by simpa using hover)⟩

protected theorem evictCount {n : ℕ} (h : Ready c xs) :
    ∃ ms xs', Goes c xs ms (evictCount n c).1 xs' ∧ Evictions ms := by
  induction n generalizing c xs with
  | zero => exact ⟨[], xs, .refl h, .nil⟩
  | succ n ih =>
    rw [evictCount]
    cases hv : victim c with
    | none => exact ⟨[], xs, .refl h, .nil⟩
    | some i =>
      obtain ⟨l, r, k, rfl, hk⟩ := h.keyed_split (h.victim_mem hv)
      have hevict := h.evictNode hk (h.victim_first hv)
      obtain ⟨ms, xs', hgoes, hms⟩ := ih hevict.ready
      exact ⟨_, xs', hevict.trans hgoes, hms.cons k⟩

protected theorem sieveOne (h : Ready c (l ++ i :: r)) (hpol : c.policy = .sieve) (hk : c.key i = some k) :
    (c.visited i = true ∧ Goes c (l ++ i :: r) [] (sieveOne c i) (l ++ i :: r) ∧
      (sieveOne c i).visited = update c.visited i false) ∨
    (c.visited i = false ∧ Goes c (l ++ i :: r) [.evicted k] (sieveOne c i) (l ++ r) ∧
      (sieveOne c i).visited = c.visited) := by
  have hmem : ∀ j ∈ (c.links.next i <|> c.main.tail), j ∈ l ++ i :: r ∧ c.policy = .sieve := by
    intro j hj
    rw [Option.mem_def, Option.orElse_eq_orElse, Option.orElse_eq_or, Option.or_eq_some_iff] at hj
    refine ⟨?_, hpol⟩
    rcases hj with hj | ⟨-, hj⟩
    · exact h.linked.next_mem (by simp) hj
    · exact List.mem_of_getLast? (h.linked.tail_eq.symm.trans hj)
  cases hvisited : c.visited i with
  | true =>
    have hspare := h.point (update c.visited i false) _ hmem
    refine Or.inl ⟨rfl, ?_⟩
    simp only [sieveOne, hvisited, if_true]
    exact ⟨hspare, trivial⟩
  | false =>
    have hhand := h.point c.visited _ hmem
    have hsteady : Steady c.toConfig := Or.inl hpol
    have hmark : (Callback.onEvict (some k) (c.value i) "evicted").mark = some (.evicted k) := by
      simp [Callback.mark]
    refine Or.inr ⟨rfl, ?_⟩
    simp only [sieveOne, hvisited, Bool.false_eq_true, if_false]
    refine ⟨hhand.trans (hhand.ready.dropNode hk (Or.inr rfl) hmark
      (fun _ horder => absurd hpol horder.1) (by simp) fun _ hc => h.candidate_first hsteady hc), ?_⟩
    have hdropped : (unlinkNode (abortInflight { c with
        sieveHand := c.links.next i <|> c.main.tail } (c.key i)) i false).visited = _ :=
      unlinkNode_visited
    refine hdropped.trans ?_
    rw [abortInflight_toHeap]

/-- How many turns SIEVE may take: one for each node, and one more for each mark. -/
def turnsLeft (c : Cache K V) (xs : List ℕ) : ℕ := xs.length + (xs.filter c.visited).length

protected theorem sieveEvict (h : Ready c xs) (turns : ℕ) (hpol : c.policy = .sieve) :
    ∃ ms xs', Goes c xs ms (sieveEvict turns c) xs' ∧ Evictions ms ∧
      (turnsLeft c xs ≤ turns → Done (sieveEvict turns c) xs') := by
  induction turns generalizing c xs with
  | zero =>
    refine ⟨[], xs, .refl h, .nil, fun hle => Or.inr (List.length_eq_zero_iff.mp ?_)⟩
    unfold turnsLeft at hle
    omega
  | succ turns ih =>
    rw [sieveEvict]
    split
    · cases hi : (c.sieveHand <|> c.main.head) with
      | none =>
        rw [Option.orElse_eq_orElse, Option.orElse_eq_or, Option.or_eq_none_iff] at hi
        exact ⟨[], xs, .refl h, .nil, fun _ => Or.inr (h.linked.head_none_iff.mp hi.2)⟩
      | some i =>
        have hmem : i ∈ xs := by
          rw [Option.orElse_eq_orElse, Option.orElse_eq_or, Option.or_eq_some_iff] at hi
          rcases hi with hi | ⟨-, hi⟩
          · exact (h.hand i hi).1
          · exact List.mem_of_head? (h.linked.head_eq.symm.trans hi)
        obtain ⟨l, r, k, rfl, hk⟩ := h.keyed_split hmem
        have hnd := h.linked.nodup
        rcases h.sieveOne hpol hk with ⟨hvisited, hgoes, hmarks⟩ | ⟨hvisited, hgoes, hmarks⟩
        · -- its mark is taken off
          have hconfig := hgoes.moves.config h.toListed
          obtain ⟨ms, xs', hrest, hms, hdone⟩ := ih hgoes.ready (by rw [hconfig]; exact hpol)
          refine ⟨_, xs', hgoes.trans hrest, hms, fun hle => hdone ?_⟩
          have hold : ∀ ys : List ℕ, i ∉ ys →
              ys.filter (update c.visited i false) = ys.filter c.visited := by
            intro ys hys
            refine List.filter_congr fun j hj => ?_
            rw [update_of_ne (by rintro rfl; exact hys hj)]
          have hnot := h.toListed.notMem
          rw [List.mem_append, not_or] at hnot
          simp only [turnsLeft, hmarks, List.filter_append, List.filter_cons, hvisited,
            update_self, if_true, Bool.false_eq_true, if_false, hold l hnot.1,
            hold r hnot.2, List.length_append, List.length_cons] at hle ⊢
          omega
        · have hconfig := hgoes.moves.config h.toListed
          obtain ⟨ms, xs', hrest, hms, hdone⟩ := ih hgoes.ready (by rw [hconfig]; exact hpol)
          refine ⟨_, xs', hgoes.trans hrest, hms.cons k, fun hle => hdone ?_⟩
          simp only [turnsLeft, hmarks, List.filter_append, List.filter_cons, hvisited,
            Bool.false_eq_true, if_false, List.length_append, List.length_cons] at hle ⊢
          omega
    · next hover => exact ⟨[], xs, .refl h, .nil, fun _ => Or.inl (by simpa using hover)⟩

protected theorem settleCandidate (h : Ready c xs) : Goes c xs [] (settleCandidate c) xs := by
  unfold settleCandidate
  split
  · exact h.head
  · exact .refl h

protected theorem evictIfNeeded (h : Ready c xs) : ∃ ms xs', Goes c xs ms (evictIfNeeded c) xs' ∧
    Evictions ms ∧ Done (evictIfNeeded c) xs' := by
  have hle := h.length_le
  have hsettled : ∀ c' : Cache K V, ∀ ys, Done c' ys → Done (settleCandidate c') ys := by
    intro c' ys hdone
    unfold settleCandidate
    split <;> exact hdone
  by_cases hpol : c.policy = .sieve
  · obtain ⟨ms, xs', hgoes, hms, hdone⟩ := h.sieveEvict (2 * c.nextNode) hpol
    have hmarks : (xs.filter c.visited).length ≤ xs.length := List.length_filter_le _ _
    refine ⟨ms, xs', ?_, hms, ?_⟩
    · simpa only [evictIfNeeded, hpol] using hgoes
    · simp only [evictIfNeeded, hpol]
      refine hdone ?_
      unfold turnsLeft
      omega
  · obtain ⟨ms, xs', hgoes, hms, hdone⟩ := h.evictLoop c.nextNode hpol
    have hevict : evictIfNeeded c =
        settleCandidate (evictLoop c.nextNode c) := by
      cases hp : c.policy with
      | sieve => exact absurd hp hpol
      | s3fifo => exact absurd hp h.policy
      | lru | slru => simp only [evictIfNeeded, hp]
    rw [hevict]
    refine ⟨ms ++ [], xs', hgoes.trans hgoes.ready.settleCandidate, ?_, hsettled _ _ (hdone hle)⟩
    rw [List.append_nil]
    exact hms

end Ready

/-! ## Reads -/

/-- A node may be taken out: the candidate is elsewhere, or leaves with the head. -/
def Droppable (c : Cache K V) (i : ℕ) : Prop := c.evictionCandidate = some i → c.links.prev i = none

instance (c : Cache K V) (i : ℕ) : Decidable (Droppable c i) := inferInstanceAs (Decidable (_ → _))

def LookupKeeps (c : Cache K V) (key : K) (ignoreExpiry : Bool) (now : ℚ) : Prop :=
  ∀ i ∈ lookup c key, ignoreExpiry = false → now ≠ 0 → expiredAt c i now → Droppable c i

instance (c : Cache K V) (key : K) (ignoreExpiry : Bool) (now : ℚ) :
    Decidable (LookupKeeps c key ignoreExpiry now) :=
  inferInstanceAs (Decidable (∀ i ∈ lookup c key, _ → _ → _ → _))

def hits (c : Cache K V) (key : K) (ignoreExpiry : Bool) (now : ℚ) : Bool :=
  (lookup c key).any fun i => !(decide (ignoreExpiry = false ∧ now ≠ 0 ∧ expiredAt c i now))

omit [DecidableEq K] in
theorem Ready.droppable (h : Ready c (l ++ i :: r)) (hok : Droppable c i)
    (hi : c.evictionCandidate = some i) : l = [] := by
  have hprev := hok hi
  rwa [h.prev_eq, List.getLast?_eq_none_iff] at hprev

namespace Ready

theorem lookup_split (h : Ready c xs) (hi : lookup c k = some i) :
    ∃ l r, xs = l ++ i :: r ∧ c.key i = some k := by
  rw [lookup_list h.policy] at hi
  obtain ⟨hmem, hk⟩ := h.get_iff.mp hi
  obtain ⟨l, r, hxs⟩ := List.append_of_mem hmem
  exact ⟨l, r, hxs, hk⟩

protected theorem countMiss (h : Ready c xs) (count : Bool) : Goes c xs [] (countMiss c count) xs := by
  cases count with
  | false => exact .refl h
  | true => exact h.quiet rfl rfl rfl rfl rfl

protected theorem countHit (h : Ready c xs) : Goes c xs [] (countHit c) xs := h.quiet rfl rfl rfl rfl rfl

protected theorem countKey (h : Ready c xs) (key : K) : Goes c xs [] (countKey c key) xs := by
  unfold countKey
  split
  · exact h.quiet rfl rfl rfl rfl rfl
  · exact .refl h

/-- A lookup finds an entry of the list and leaves it where it is, or takes it out. -/
protected theorem fetchValidNode {ign : Bool} (count : Bool) (h : Ready c xs) (hok : LookupKeeps c k ign now) :
    (∃ c' ms xs', fetchValidNode c k ign count now = (c', none) ∧ hits c k ign now = false ∧
      Goes c xs ms c' xs' ∧ ∀ m ∈ ms, m.leaves) ∨
    ∃ i l r, fetchValidNode c k ign count now = (c, some i) ∧ hits c k ign now = true ∧
      lookup c k = some i ∧ xs = l ++ i :: r ∧ c.key i = some k := by
  cases hi : lookup c k with
  | none =>
    refine Or.inl ⟨_, [], xs, ?_, ?_, h.countMiss count, by simp⟩
    · simp only [fetchValidNode, hi]
    · simp only [hits, hi, Option.any_none]
  | some i =>
    obtain ⟨l, r, rfl, hk⟩ := h.lookup_split hi
    simp only [fetchValidNode, hits, hi, h.policy, false_and, if_false, Option.any_some]
    by_cases hexp : ign = false ∧ now ≠ 0 ∧ expiredAt c i now
    · rw [if_pos hexp]
      have hremove := h.removeExpiredNode hk (h.droppable (hok i hi hexp.1 hexp.2.1 hexp.2.2))
      exact Or.inl ⟨_, _, _, rfl, by simp [hexp],
        hremove.trans (hremove.ready.countMiss count), by simp [Mark.leaves]⟩
    · rw [if_neg hexp]
      exact Or.inr ⟨i, l, r, rfl, by simp [hexp], rfl, rfl, hk⟩

end Ready

def hitMarks (c c' : Cache K V) (key : K) (ignoreExpiry : Bool) (now : ℚ) : List (Mark K) :=
  if hits c key ignoreExpiry now then [.used key] else drops c c'

/-- The keys of a `getMany` that are found, and those that are taken out. -/
def getManyMarks (ignoreExpiry : Bool) : Cache K V → List (K × ℚ) → List (Mark K)
  | _, [] => []
  | c, q :: qs =>
    let c' := (getManyOne ignoreExpiry (c, []) q).1
    hitMarks c c' q.1 ignoreExpiry q.2 ++ getManyMarks ignoreExpiry c' qs

namespace Ready

protected theorem get (h : Ready c xs) (hok : LookupKeeps c k false now) :
    ∃ xs', Goes c xs (hitMarks c (get c k now).1 k false now) (get c k now).1 xs' := by
  rcases h.fetchValidNode true hok with ⟨c', ms, xs', hfetch, hhit, hgoes, hms⟩ |
    ⟨i, l, r, hfetch, hhit, -, rfl, hk⟩
  · simp only [get, hfetch, hitMarks, hhit, Bool.false_eq_true, if_false]
    rw [hgoes.drops h hms]
    exact ⟨xs', hgoes⟩
  · obtain ⟨xs', huse⟩ := h.use hk
    simp only [get, hfetch, hitMarks, hhit, if_true]
    have hcount := huse.trans huse.ready.countHit
    exact ⟨xs', hcount.trans (hcount.ready.countKey k)⟩

protected theorem peek (h : Ready c xs) (hok : LookupKeeps c k false now) :
    ∃ xs', Goes c xs (drops c (peek c k now).1) (peek c k now).1 xs' := by
  rcases h.fetchValidNode false hok with ⟨c', ms, xs', hfetch, -, hgoes, hms⟩ | ⟨i, l, r, hfetch, -⟩
  · simp only [peek, hfetch]
    rw [hgoes.drops h hms]
    exact ⟨xs', hgoes⟩
  · simp only [peek, hfetch]
    rw [(Goes.refl h).drops h (by simp)]
    exact ⟨xs, .refl h⟩

protected theorem has {ign : Bool} (h : Ready c xs) (hok : LookupKeeps c k ign now) :
    ∃ xs', Goes c xs (drops c (has c k ign now).1) (has c k ign now).1 xs' := by
  rcases h.fetchValidNode false hok with ⟨c', ms, xs', hfetch, -, hgoes, hms⟩ | ⟨i, l, r, hfetch, -⟩
  · simp only [has, hfetch]
    rw [hgoes.drops h hms]
    exact ⟨xs', hgoes⟩
  · simp only [has, hfetch]
    rw [(Goes.refl h).drops h (by simp)]
    exact ⟨xs, .refl h⟩

protected theorem getManyOne {ign : Bool} (vs : List (K × Option V)) {q : K × ℚ} (h : Ready c xs)
    (hok : LookupKeeps c q.1 ign q.2) :
    ∃ xs', Goes c xs (hitMarks c (getManyOne ign (c, vs) q).1 q.1 ign q.2)
      (getManyOne ign (c, vs) q).1 xs' := by
  rcases h.fetchValidNode true hok with ⟨c', ms, xs', hfetch, hhit, hgoes, hms⟩ |
    ⟨i, l, r, hfetch, hhit, -, rfl, hk⟩
  · simp only [getManyOne, hfetch, hitMarks, hhit, Bool.false_eq_true, if_false]
    rw [hgoes.drops h hms]
    exact ⟨xs', hgoes⟩
  · obtain ⟨xs', huse⟩ := h.use hk
    simp only [getManyOne, hfetch, hitMarks, hhit, if_true]
    exact ⟨xs', huse.trans huse.ready.countHit⟩

/-- What has been found so far is not asked for. -/
theorem getManyOne_fst (ign : Bool) (vs vs' : List (K × Option V)) (q : K × ℚ) :
    (getManyOne ign (c, vs) q).1 = (getManyOne ign (c, vs') q).1 := by
  unfold getManyOne
  cases hfound : (fetchValidNode c q.1 ign true q.2).2 <;> simp only [hfound]

theorem getMany {ign : Bool} {keys : List (K × ℚ)} {vs : List (K × Option V)} (h : Ready c xs)
    (hok : Meets (getManyOne ign) (fun acc q => LookupKeeps acc.1 q.1 ign q.2) (c, vs) keys) :
    ∃ xs', Goes c xs (getManyMarks ign c keys) (keys.foldl (getManyOne ign) (c, vs)).1
      xs' := by
  induction keys generalizing c xs vs with
  | nil => exact ⟨xs, .refl h⟩
  | cons q keys ih =>
    obtain ⟨hq, hkeys⟩ := hok
    obtain ⟨xs', hone⟩ := h.getManyOne vs hq
    have hfst := getManyOne_fst (c := c) ign vs [] q
    rw [List.foldl_cons, getManyMarks]
    generalize getManyOne ign (c, vs) q = acc at *
    obtain ⟨c', vs'⟩ := acc
    obtain ⟨xs'', hrest⟩ := ih hone.ready hkeys
    rw [← hfst]
    exact ⟨xs'', hone.trans hrest⟩

protected theorem touch (ttl : Option Ttl) (h : Ready c xs) (hok : LookupKeeps c k false now) :
    ∃ ms xs', Goes c xs ms (settleCall c (touch c k ttl now) (Outcome.flag (K := K) (V := V))).1 xs' ∧
      ms = match (settleCall c (touch c k ttl now) (Outcome.flag (K := K) (V := V))).2 with
        | .flag true => [.used k]
        | _ => drops c (settleCall c (touch c k ttl now) (Outcome.flag (K := K) (V := V))).1 := by
  rcases h.fetchValidNode false hok with ⟨c', ms, xs', hfetch, -, hgoes, hms⟩ |
    ⟨i, l, r, hfetch, -, -, rfl, hk⟩
  · simp only [touch, hfetch, settleCall]
    exact ⟨ms, xs', hgoes, (hgoes.drops h hms).symm⟩
  · cases ttl with
    | none =>
      obtain ⟨xs', huse⟩ := h.use hk
      simp only [touch, hfetch, settleCall]
      exact ⟨_, xs', huse, rfl⟩
    | some ttl =>
      cases hx : expiresAtOf ttl now with
      | error e =>
        simp only [touch, hfetch, hx, settleCall]
        exact ⟨[], _, .refl h, ((Goes.refl h).drops h (by simp)).symm⟩
      | ok e =>
        have hnote : Goes c _ [] { c with expiresAt := update c.expiresAt i e } _ :=
          h.note [] rfl rfl rfl rfl rfl (List.append_nil _).symm rfl
        obtain ⟨xs', huse⟩ := hnote.ready.use hk
        simp only [touch, hfetch, hx, settleCall]
        exact ⟨_, xs', hnote.trans huse, rfl⟩

end Ready

/-! ## Writes -/

def storeMarks (c : Cache K V) (key : K) : List (Mark K) :=
  if (c.map.get key).isSome then [.written key, .used key] else [.inserted key]

/-- The marks of the entries of a `setMany`. -/
def setManyMarks (expiresAt : ℚ) (weight : Option Weight) : Cache K V → List (K × V) → List (Mark K)
  | _, [] => []
  | c, p :: ps =>
    (if oversized c (computeWeight c.weightFn p.2 weight) then [] else storeMarks c p.1) ++
      setManyMarks expiresAt weight (setManyOne expiresAt weight c p) ps

namespace Ready

protected theorem updateExisting (h : Ready c (l ++ i :: r)) (hk : c.key i = some k) (hw : 0 ≤ w) :
    ∃ xs', Goes c (l ++ i :: r) [.written k, .used k] (updateExisting c i v w x) xs' := by
  have hwrite := h.write (by simp) hk (update c.value i (some v)) w x hw
  obtain ⟨xs', huse⟩ := hwrite.ready.use hk
  exact ⟨xs', hwrite.trans huse⟩

protected theorem insertNew {n : ℕ} (h : Ready c xs) (hw : 0 ≤ w) (hfresh : c.map.get k = none) :
    ∃ ms xs', Goes c xs ms (insertNew c k v w x n).1 xs' ∧
      (c.sketch = none → ms = [.inserted k]) ∧ ((insertNew c k v w x n).2 = false → ms = []) := by
  cases hsketch : c.sketch with
  | none =>
    have hwindow : ¬Windowed c.toConfig := fun hwindow => h.setup.windowed hwindow hsketch
    obtain ⟨xs', hgoes⟩ := h.insertNode (v := v) (x := x) hw hfresh hwindow
    rw [insertNew_plain hsketch]
    exact ⟨_, xs', hgoes, fun _ => rfl, by simp⟩
  | some sketch =>
    simp only [insertNew, hsketch, reduceCtorEq, false_implies, true_and]
    by_cases hwindow : Windowed c.toConfig
    · have hwindow' : (c.windowSize.all fun n => decide (0 < n)) = true := hwindow
      obtain ⟨ms, xs', hgoes, -⟩ := h.insertIntoWindow (v := v) (x := x) (n := n) hw hwindow hfresh
      simp only [hwindow', if_true, Bool.true_eq_false, false_implies, and_true]
      exact ⟨_, xs', hgoes⟩
    · have hwindow' : (c.windowSize.all fun n => decide (0 < n)) = false := by
        simpa [Windowed] using hwindow
      simp only [hwindow', Bool.false_eq_true, if_false]
      split
      · exact ⟨[], xs, h.quiet rfl rfl rfl rfl rfl, fun _ => rfl⟩
      · obtain ⟨xs', hgoes⟩ := h.insertNode (v := v) (x := x) hw hfresh hwindow
        exact ⟨_, xs', hgoes, by simp⟩

protected theorem countWeightError (h : Ready c xs) (v : V) (weight : Option Weight) :
    Goes c xs [] (countWeightError c v weight) xs := by
  unfold countWeightError
  split
  · exact h.quiet rfl rfl rfl rfl rfl
  · exact .refl h

theorem reject (h : Ready c xs) (k : K) (v : V) : Goes c xs [] (reject c k v) xs :=
  h.note [.onEvict (some k) (some v) "rejected-oversized"] rfl rfl rfl rfl rfl rfl
    (by simp [Callback.mark])

end Ready

/-- `set` between its checks and its eviction. -/
def putValue (c : Cache K V) (key : K) (value : V) (w expiresAt : ℚ) : Cache K V × Bool :=
  match lookup c key with
  | some i => (updateExisting c i value w expiresAt, true)
  | none => insertNew c key value w expiresAt c.map.size

theorem store_eq {weight : Option Weight} : store c k v x weight =
    if oversized c (computeWeight c.weightFn v weight) then
      (reject (countWeightError c v weight) k v, false)
    else
      let p := putValue (countWeightError c v weight) k v (computeWeight c.weightFn v weight) x
      (if p.2 then evictIfNeeded (countKey p.1 k) else countKey p.1 k, true) := by
  have hconfig : (countWeightError c v weight).toConfig = c.toConfig := countWeightError_toConfig
  have hover : ∀ w, oversized (countWeightError c v weight) w = oversized c w := by
    intro w
    simp only [oversized, hconfig]
  simp only [store, hover]
  rfl

theorem storeMarks_congr (h : c'.map = c.map) : storeMarks c' k = storeMarks c k := by
  simp only [storeMarks, h]

theorem storeMarks_stay : (storeMarks c k).filter Mark.leaves = [] := by
  unfold storeMarks
  split <;> rfl

namespace Ready

protected theorem putValue (h : Ready c xs) (hw : 0 ≤ w) : ∃ ms xs', Goes c xs ms (putValue c k v w x).1 xs' ∧
    (c.sketch = none → ms = storeMarks c k) ∧ ((putValue c k v w x).2 = false → ms = []) := by
  cases hi : lookup c k with
  | none =>
    have hfresh : c.map.get k = none := by rwa [lookup_list h.policy] at hi
    obtain ⟨ms, xs', hgoes, hms, hrefused⟩ :=
      h.insertNew (v := v) (x := x) (n := c.map.size) hw hfresh
    have hput : putValue c k v w x = insertNew c k v w x c.map.size := by
      simp only [putValue, hi]
    rw [hput]
    refine ⟨ms, xs', hgoes, fun hsketch => ?_, hrefused⟩
    rw [hms hsketch, storeMarks, hfresh]
    rfl
  | some i =>
    obtain ⟨l, r, rfl, hk⟩ := h.lookup_split hi
    obtain ⟨xs', hgoes⟩ := h.updateExisting (v := v) (x := x) hk hw
    have hput : putValue c k v w x = (updateExisting c i v w x, true) := by
      simp only [putValue, hi]
    rw [hput]
    refine ⟨[.written k, .used k], xs', hgoes, fun _ => ?_, by simp⟩
    rw [lookup_list h.policy] at hi
    rw [storeMarks, hi]
    rfl

section
variable (weight : Option Weight)

theorem store (h : Ready c xs) :
    ∃ ms xs', Goes c xs ms (store c k v x weight).1 xs' ∧ (c.sketch = none →
      ms = (if (PowerCache.store c k v x weight).2 then storeMarks c k else []) ++
        drops c (PowerCache.store c k v x weight).1) ∧
      ((∃ m ∈ ms, m.grows) → Done (PowerCache.store c k v x weight).1 xs') := by
  have hcount := h.countWeightError v weight
  have hconfig := hcount.moves.config h.toListed
  rw [store_eq]
  split
  · have hreject := hcount.trans (hcount.ready.reject k v)
    refine ⟨[], xs, hreject, fun _ => ?_, by simp⟩
    rw [hreject.drops h (by simp)]
    rfl
  · obtain ⟨ms, xs', hput, hms, hrefused⟩ := hcount.ready.putValue (k := k) (v := v) (x := x)
      (computeWeight_nonneg c.weightFn v weight)
    have hkey := hcount.trans (hput.trans (hput.ready.countKey k))
    have hmap : (countWeightError c v weight).map = c.map := by
      unfold countWeightError
      split <;> rfl
    rw [hconfig, storeMarks_congr hmap] at hms
    simp only [List.nil_append, List.append_nil] at hkey
    simp only []
    cases hstored : (putValue (countWeightError c v weight) k v
      (computeWeight c.weightFn v weight) x).2 with
    | false =>
      obtain rfl := hrefused hstored
      simp only [Bool.false_eq_true, if_false, if_true]
      refine ⟨[], xs', hkey, fun hsketch => ?_, by simp⟩
      have hnil := hms hsketch
      rw [hkey.drops h (by simp), ← hnil]
      rfl
    | true =>
      obtain ⟨ms', xs'', hevict, hms', hdone⟩ := hkey.ready.evictIfNeeded
      have hall := hkey.trans hevict
      simp only [if_true]
      refine ⟨ms ++ ms', xs'', hall, fun hsketch => ?_, fun _ => hdone⟩
      rw [hall.moves.drops h.toListed, List.filter_append, hms hsketch, storeMarks_stay,
        List.filter_eq_self.mpr hms'.leaves, List.nil_append]

protected theorem setManyOne (p : K × V) (h : Ready c xs) :
    ∃ ms xs', Goes c xs ms (setManyOne x weight c p) xs' ∧ (c.sketch = none → ms =
      if oversized c (computeWeight c.weightFn p.2 weight) then [] else storeMarks c p.1) := by
  have hcount := h.countWeightError p.2 weight
  have hconfig := hcount.moves.config h.toListed
  have hmap : (countWeightError c p.2 weight).map = c.map := by
    unfold countWeightError
    split <;> rfl
  have hover : ∀ w, oversized (countWeightError c p.2 weight) w = oversized c w := by
    intro w
    simp only [oversized, hconfig]
  simp only [setManyOne, hover, hmap]
  split
  · exact ⟨[], xs, hcount.trans (hcount.ready.reject p.1 p.2), fun _ => rfl⟩
  · cases hi : c.map.get p.1 with
    | some i =>
      have hi' : lookup (countWeightError c p.2 weight) p.1 = some i := by
        rw [lookup_list hcount.ready.policy, hmap, hi]
      obtain ⟨l, r, rfl, hk⟩ := hcount.ready.lookup_split hi'
      obtain ⟨xs', hput⟩ := hcount.ready.updateExisting (v := p.2) (x := x) hk
        (computeWeight_nonneg c.weightFn p.2 weight)
      refine ⟨_, xs', hcount.trans (hput.trans (hput.ready.countKey p.1)), fun _ => ?_⟩
      rw [storeMarks, hi]
      rfl
    | none =>
      obtain ⟨ms, xs', hput, hms, -⟩ := hcount.ready.insertNew (k := p.1) (v := p.2) (x := x)
        (n := c.map.size) (computeWeight_nonneg c.weightFn p.2 weight) (by rw [hmap]; exact hi)
      rw [hconfig] at hms
      simp only []
      generalize insertNew (countWeightError c p.2 weight) p.1 p.2
        (computeWeight c.weightFn p.2 weight) x c.map.size = res at hput ⊢
      obtain ⟨c', stored⟩ := res
      have hmarks : c.sketch = none → ms = storeMarks c p.1 := fun hsketch => by
        rw [hms hsketch, storeMarks, hi]
        rfl
      cases stored with
      | false => exact ⟨ms, xs', hcount.trans hput, hmarks⟩
      | true =>
        refine ⟨ms ++ [], xs', hcount.trans (hput.trans (hput.ready.countKey p.1)), ?_⟩
        rw [List.append_nil]
        exact hmarks

theorem setManyLoop (ps : List (K × V)) (h : Ready c xs) :
    ∃ ms xs', Goes c xs ms (ps.foldl (setManyOne x weight) c) xs' ∧
      (c.sketch = none → ms = setManyMarks x weight c ps) := by
  induction ps generalizing c xs with
  | nil => exact ⟨[], xs, .refl h, fun _ => rfl⟩
  | cons p ps ih =>
    obtain ⟨ms, xs', hone, hms⟩ := h.setManyOne (x := x) weight p
    obtain ⟨ms', xs'', hrest, hms'⟩ := ih hone.ready
    refine ⟨ms ++ ms', xs'', hone.trans hrest, fun hsketch => ?_⟩
    rw [hms hsketch, hms' (by rw [hone.moves.config h.toListed]; exact hsketch)]
    rfl

protected theorem setMany (ps : List (K × V)) (h : Ready c xs) :
    ∃ ms xs', Goes c xs ms (evictIfNeeded (ps.foldl (setManyOne x weight) c)) xs' ∧
      (c.sketch = none → ms = setManyMarks x weight c ps ++
        drops c (evictIfNeeded (ps.foldl (setManyOne x weight) c))) ∧
      Done (evictIfNeeded (ps.foldl (setManyOne x weight) c)) xs' := by
  obtain ⟨ms, xs', hloop, hms⟩ := h.setManyLoop (x := x) weight ps
  obtain ⟨ms', xs'', hevict, hms', hdone⟩ := hloop.ready.evictIfNeeded
  have hall := hloop.trans hevict
  refine ⟨ms ++ ms', xs'', hall, fun hsketch => ?_, hdone⟩
  have hstay : ∀ (ps : List (K × V)) (c : Cache K V),
      (setManyMarks x weight c ps).filter Mark.leaves = [] := by
    intro ps
    induction ps with
    | nil => exact fun _ => rfl
    | cons p ps ih =>
      intro c
      rw [setManyMarks, List.filter_append, ih, List.append_nil]
      split
      · rfl
      · exact storeMarks_stay
  rw [hall.moves.drops h.toListed, List.filter_append, hms hsketch, hstay,
    List.filter_eq_self.mpr hms'.leaves, List.nil_append]

end

/-! ## Deletion, sweeps and limits -/

protected theorem delete (h : Ready c xs) (hok : ∀ i ∈ lookup c k, Droppable c i) :
    ∃ xs', Goes c xs (drops c (delete c k).1) (delete c k).1 xs' := by
  have habort := h.abortInflight (some k)
  have hlookup : lookup (abortInflight c (some k)) k = lookup c k := by
    rw [lookup_list habort.ready.policy, lookup_list h.policy, abortInflight_toHeap]
  cases hi : lookup c k with
  | none =>
    have hdelete : delete c k = (abortInflight c (some k), false) := by
      simp only [delete, hlookup, hi]
    rw [hdelete, habort.drops h (by simp)]
    exact ⟨xs, habort⟩
  | some i =>
    obtain ⟨l, r, rfl, hk⟩ := h.lookup_split hi
    have hcand : c.evictionCandidate = some i → l = [] := h.droppable (hok i hi)
    have hdrop : Goes (abortInflight c (some k)) (l ++ i :: r) [.removed k]
        (delete c k).1 (l ++ r) := by
      simp only [delete, hlookup, hi, unlinkNode_log]
      refine habort.ready.drop (by simpa using hk) _ (Or.inl rfl) ?_ (by simp) (by simp) ?_
      · simp [Callback.mark, hk]
      · simpa using hcand
    have hall := habort.trans hdrop
    rw [hall.drops h (by simp [Mark.leaves])]
    exact ⟨_, hall⟩

end Ready

def Adrift (c : Cache K V) (xs : List ℕ) : Prop := ∀ i ∈ c.evictionCandidate,
  i ∈ xs ∨ i ∉ xs ∧ c.links.prev i = none ∧ c.links.next i = none

protected theorem Settled.abortInflight (h : Settled c xs) (key : Option K) :
    Settled (abortInflight c key) xs := by
  refine ⟨h.toListed.abortInflight key, ?_, ?_, ?_⟩
  · rw [abortInflight_toConfig]
    exact h.setup
  · apply h.memo.congr abortInflight_toConfig <;> rw [abortInflight_toHeap]
  · rw [abortInflight_toConfig, abortInflight_toHeap]
    exact h.headed

/-- A candidate that has gone stays where it is while other nodes go. -/
theorem Settled.adrift_drop {cs : Counters} {cbs : List (Callback K V)} (h : Settled c (l ++ i :: r))
    (hadrift : Adrift c (l ++ i :: r)) :
    Adrift (freeNode { unlinkNode c i false with counters := cs, log := cbs } i) (l ++ r) := by
  have hnot := h.toListed.notMem
  have hd : Detached c.toHeap (unlinkNode c i false).toHeap c.key .main i :=
    Detached.of_main h.layout.shape (by simp [onlyMain])
  intro j hj
  change (unlinkNode c i false).evictionCandidate = some j at hj
  rw [unlinkNode_candidate, h.prev_eq, h.linked.detach.head_eq] at hj
  split at hj
  · exact Or.inl (List.mem_of_head? hj)
  · rcases hadrift j hj with hmem | ⟨hmem, hprev, hnext⟩
    · by_cases hji : j = i
      · subst hji
        exact Or.inr ⟨hnot, update_self _ _ _, update_self _ _ _⟩
      · exact Or.inl (by simpa [hji] using hmem)
    · have hji : j ≠ i := fun heq => hmem (by simp [heq])
      have hmem' : j ∉ l ++ r := fun hj' => hmem (by
        rcases List.mem_append.mp hj' with hj' | hj' <;> simp [hj'])
      obtain ⟨hp, hn⟩ := hd.links j hji
      refine Or.inr ⟨hmem', ?_, ?_⟩
      · refine (update_of_ne hji _ _).trans (hp.trans ?_)
        refine (assign_of_ne fun heq => hmem ?_).trans hprev
        exact h.linked.next_mem (by simp) heq
      · refine (update_of_ne hji _ _).trans (hn.trans ?_)
        refine (assign_of_ne fun heq => hmem ?_).trans hnext
        exact h.linked.prev_mem (by simp) heq

/-- Where it has gone, `invalidate` puts it on the head again. -/
theorem Settled.realigned (h : Settled c xs) (hadrift : Adrift c xs) :
    Goes c xs [] (realignCandidate c) xs := by
  unfold realignCandidate
  split
  · next hlinked =>
    refine ⟨.refl c xs, ⟨h, fun i hi => ?_⟩⟩
    refine (hadrift i hi).resolve_right fun hout => ?_
    obtain ⟨hmem, hprev, hnext⟩ := hout
    refine hmem ?_
    rw [Option.mem_def.mp hi, isLinked, Option.any_some, hprev, hnext] at hlinked
    rcases Bool.or_eq_true_iff.mp hlinked with hend | hend
    · exact List.mem_of_head? (h.linked.head_eq.symm.trans (by simpa using hend))
    · exact List.mem_of_getLast? (h.linked.tail_eq.symm.trans (by simpa using hend))
  · exact h.head

protected theorem Settled.invalidateOne {n : ℕ} (h : Settled c xs) (hadrift : Adrift c xs) :
    ∃ ms xs', Moves c xs ms (invalidateOne (c, n) i).1 xs' ∧
      Settled (invalidateOne (c, n) i).1 xs' ∧
      Adrift (invalidateOne (c, n) i).1 xs' ∧ ∀ m ∈ ms, ∃ k, m = .removed k := by
  simp only [invalidateOne]
  split
  · next hget =>
    obtain ⟨k, hk, hki⟩ := Option.bind_eq_some_iff.mp hget
    have hmem : i ∈ xs := (h.get_iff.mp hki).1
    obtain ⟨l, r, rfl⟩ := List.append_of_mem hmem
    have habort := h.abortInflight (c.key i)
    have hadrift' : Adrift (abortInflight c (c.key i)) (l ++ i :: r) := by
      unfold Adrift
      rw [abortInflight_toHeap]
      exact hadrift
    have hnote : Move c (l ++ i :: r) [] (abortInflight c (c.key i)) (l ++ i :: r) :=
      .note [] abortInflight_toConfig (congrArg Fields.key abortInflight_toFields)
        (congrArg Fields.weight abortInflight_toFields) abortInflight_toHeap
        abortInflight_currentWeight (abortInflight_log.trans (List.append_nil _).symm) rfl
    obtain ⟨cs, hdrop⟩ := dropNode_eq (abortInflight c (c.key i)) i false "invalidated"
    have hmove : Move (abortInflight c (c.key i)) (l ++ i :: r) [.removed k]
        (dropNode (unlinkNode (abortInflight c (c.key i)) i false) i "invalidated")
        (l ++ r) := by
      rw [hdrop]
      exact .drop false cs _ rfl (by simpa using hk) (Or.inl rfl) (by simp [Callback.mark, hk])
        (by simp)
    refine ⟨_, l ++ r, (Moves.of_move hnote).tail hmove, ?_, ?_, by simp⟩
    · rw [hdrop]
      exact habort.drop cs _ (by simp)
    · rw [hdrop]
      exact habort.adrift_drop hadrift'
  · exact ⟨[], xs, .refl c xs, h, hadrift, by simp⟩

theorem Settled.invalidateLoop (doomed : List ℕ) (n : ℕ) (h : Settled c xs) (hadrift : Adrift c xs) :
    ∃ ms xs', Moves c xs ms (doomed.foldl invalidateOne (c, n)).1 xs' ∧
      Settled (doomed.foldl invalidateOne (c, n)).1 xs' ∧
      Adrift (doomed.foldl invalidateOne (c, n)).1 xs' ∧ ∀ m ∈ ms, ∃ k, m = .removed k := by
  induction doomed generalizing c xs n with
  | nil => exact ⟨[], xs, .refl c xs, h, hadrift, by simp⟩
  | cons i doomed ih =>
    obtain ⟨ms, xs', hone, hsettled, hadrift', hms⟩ := h.invalidateOne (i := i) (n := n) hadrift
    rw [List.foldl_cons]
    generalize invalidateOne (c, n) i = acc at *
    obtain ⟨c', n'⟩ := acc
    obtain ⟨ms', xs'', hrest, hsettled', hadrift'', hms'⟩ := ih n' hsettled hadrift'
    refine ⟨ms ++ ms', xs'', hone.trans hrest, hsettled', hadrift'', fun m hm => ?_⟩
    rcases List.mem_append.mp hm with hm | hm
    · exact hms m hm
    · exact hms' m hm

def SweepKeeps (now : ℚ) (maxScan : Option ℚ) : ℕ → ℕ → Option ℕ → Cache K V → Prop
  | 0, _, _, _ => True
  | _ + 1, _, none, _ => True
  | turns + 1, scanned, some i, c =>
    if maxScan.all fun m => decide ((scanned : ℚ) < m) then
      (expiredAt c i now → Droppable c i) ∧
        SweepKeeps now maxScan turns (scanned + 1) (c.links.next i)
          (if expiredAt c i now then removeExpiredNode c i else c)
    else True

namespace Ready

protected theorem invalidate (h : Ready c xs) (p : Option K → Option V → Bool) :
    ∃ xs', Goes c xs (drops c (invalidate c p).1) (invalidate c p).1 xs' := by
  obtain ⟨ms, xs', hmoves, hsettled, hadrift, hms⟩ := h.toSettled.invalidateLoop (doomedNodes c p)
    0 fun i hi => Or.inl (h.parked i hi)
  have hrealign := hsettled.realigned hadrift
  have hall : Goes c xs (ms ++ []) (invalidate c p).1 xs' :=
    ⟨hmoves.trans hrealign.moves, hrealign.ready⟩
  have hleaves : ∀ m ∈ ms ++ [], m.leaves := by
    intro m hm
    obtain ⟨k, rfl⟩ := hms m (by simpa using hm)
    rfl
  rw [hall.drops h hleaves]
  exact ⟨xs', hall⟩

protected theorem cleanupLoop {maxScan : Option ℚ} (turns scanned : ℕ) {node : Option ℕ} (h : Ready c xs)
    (hnode : ∀ i ∈ node, i ∈ xs) (hok : SweepKeeps now maxScan turns scanned node c) :
    ∃ ms xs', Goes c xs ms (cleanupLoop now maxScan turns scanned node c).1 xs' ∧
      (∀ i ∈ (cleanupLoop now maxScan turns scanned node c).2.1, i ∈ xs') ∧
      ∀ m ∈ ms, m.leaves := by
  induction turns generalizing c xs scanned node with
  | zero => exact ⟨[], xs, .refl h, hnode, by simp⟩
  | succ turns ih =>
    cases node with
    | none => exact ⟨[], xs, .refl h, by simp [cleanupLoop], by simp⟩
    | some i =>
      obtain ⟨l, r, k, rfl, hk⟩ := h.keyed_split (hnode i rfl)
      simp only [cleanupLoop, SweepKeeps] at hok ⊢
      split
      · next hscan =>
        rw [if_pos hscan] at hok
        have hnext : ∀ j ∈ c.links.next i, j ∈ r := by
          intro j hj
          rw [h.next_eq] at hj
          exact List.mem_of_head? hj
        cases hexp : expiredAt c i now with
        | true =>
          rw [hexp] at hok
          have hremove := h.removeExpiredNode hk (h.droppable (hok.1 rfl))
          obtain ⟨ms, xs', hrest, hmem, hms⟩ := ih (scanned + 1) hremove.ready
            (fun j hj => List.mem_append_right l (hnext j hj)) hok.2
          refine ⟨_, xs', hremove.trans hrest, hmem, fun m hm => ?_⟩
          rcases List.mem_append.mp hm with hm | hm
          · rw [List.mem_singleton.mp hm]
            rfl
          · exact hms m hm
        | false =>
          rw [hexp] at hok
          exact ih (scanned + 1) h
            (fun j hj => List.mem_append_right l (List.mem_cons_of_mem i (hnext j hj))) hok.2
      · exact ⟨[], _, .refl h, by simp, by simp⟩

end Ready

def sweepStart (c : Cache K V) : Option ℕ :=
  if c.cleanupCursorValid then c.cleanupCursor <|> c.main.head else c.main.head

namespace Ready

omit [DecidableEq K] in
theorem sweepStart_mem (h : Ready c xs) : ∀ i ∈ sweepStart c, i ∈ xs := by
  have hhead : ∀ i ∈ c.main.head, i ∈ xs := fun i hi =>
    List.mem_of_head? (h.linked.head_eq.symm.trans hi)
  intro i hi
  unfold sweepStart at hi
  split at hi
  · rw [Option.mem_def, Option.orElse_eq_orElse, Option.orElse_eq_or, Option.or_eq_some_iff] at hi
    rcases hi with hi | ⟨-, hi⟩
    · exact h.layout.shape.cursor i hi
    · exact hhead i hi
  · exact hhead i hi

theorem cleanupExpiredUpTo {maxScan : Option ℚ} (h : Ready c xs)
    (hok : SweepKeeps now maxScan (c.nextNode + 1) 0 (sweepStart c) c) :
    ∃ xs', Goes c xs (drops c (cleanupExpiredUpTo c maxScan now).1)
      (PowerCache.cleanupExpiredUpTo c maxScan now).1 xs' := by
  obtain ⟨ms, xs', hloop, hmem, hms⟩ := h.cleanupLoop (c.nextNode + 1) 0 h.sweepStart_mem hok
  have hcursor := hloop.ready.cursor
    ((cleanupLoop now maxScan (c.nextNode + 1) 0 (sweepStart c) c).2.1 <|>
      (cleanupLoop now maxScan (c.nextNode + 1) 0 (sweepStart c) c).1.main.head) (by
    intro i hi
    rw [Option.mem_def, Option.orElse_eq_orElse, Option.orElse_eq_or, Option.or_eq_some_iff] at hi
    rcases hi with hi | ⟨-, hi⟩
    · exact hmem i hi
    · exact List.mem_of_head? (hloop.ready.linked.head_eq.symm.trans hi))
  have hall : Goes c xs (ms ++ []) (PowerCache.cleanupExpiredUpTo c maxScan now).1 xs' :=
    hloop.trans hcursor
  rw [hall.drops h (by simpa using hms)]
  exact ⟨xs', hall⟩

end Ready

theorem length_le_of_sublist {a b p q : List ℕ} {t : ℕ} (h : (a ++ t :: b).Sublist (p ++ t :: q))
    (hnd : (p ++ t :: q).Nodup) : a.length ≤ p.length := by
  have hnot := (List.nodup_middle.mp hnd).notMem
  rw [List.mem_append, not_or] at hnot
  obtain ⟨l₁, l₂, heq, h₁, h₂⟩ := List.sublist_append_iff.mp h
  rcases List.append_eq_append_iff.mp heq with ⟨s, rfl, hs⟩ | ⟨s, rfl, hs⟩
  · -- `t` would be in front of itself
    cases s with
    | nil => simpa using h₁.length_le
    | cons u s =>
      obtain ⟨rfl, -⟩ := List.cons.inj hs
      exact absurd (h₁.subset (by simp)) hnot.1
  · cases s with
    | nil => simpa using h₁.length_le
    | cons u s =>
      subst hs
      rw [List.cons_append] at h₂
      have hmem : t ∈ s ++ t :: b := by simp
      rcases List.sublist_cons_iff.mp h₂ with hrest | ⟨ys, hcons, hrest⟩
      · exact absurd (hrest.subset (List.mem_cons_of_mem u hmem)) hnot.2
      · obtain ⟨-, rfl⟩ := List.cons.inj hcons
        exact absurd (hrest.subset hmem) hnot.2

/-- What the window remembers is from before the `clear`: the tail it remembers is the tail
again only while the new list fits the window. -/
theorem Settled.memo_clear (h : Settled c xs) : Memo (clear c) [] := by
  obtain ⟨hconfig, hpool, hnext, -, hmemo, htail⟩ := clear_frame h.layout
  change (clear c).pool.Sublist (xs.reverse ++ c.pool) at hpool
  have hold : (xs.reverse ++ c.pool).Nodup := by
    have hnd := h.layout.shape.nodup
    simp only [Heap.nodes, onlyMain, List.append_nil, List.nil_append] at hnd
    rw [List.nodup_append] at hnd ⊢
    refine ⟨List.nodup_reverse.mpr hnd.1, hnd.2.1, fun i hi j hj => hnd.2.2 i ?_ j hj⟩
    simpa using hi
  refine ⟨fun hne => ?_, fun m hm => ?_⟩
  · rw [hconfig]
    exact h.memo.windowed (hmemo ▸ hne)
  · have hwindow := h.memo.windowed (by rw [← hmemo, hm]; simp)
    obtain ⟨t, ht, hcase⟩ := h.memo.memo m (hmemo ▸ hm)
    refine ⟨t, htail.trans ht, Or.inr ⟨by simp, ?_, ?_, fun a b hab => ?_⟩⟩
    · rw [hconfig]
      exact hwindow.fits_one.mono (by simp)
    · rw [hnext]
      rcases hcase with hl | hs
      · obtain ⟨l, r, rfl, -⟩ := hl.place
        exact h.layout.shape.bound t (by simp [Heap.nodes, onlyMain])
      · exact hs.bound
    · rw [hconfig, List.length_nil, Nat.zero_add]
      rw [hab] at hpool
      have hmem : t ∈ xs ∨ t ∈ c.pool := by simpa using hpool.subset (by simp : t ∈ a ++ t :: b)
      by_cases htx : t ∈ xs
      · obtain ⟨l, r, rfl⟩ := List.append_of_mem htx
        have hfits : r ≠ [] → FitsWindow c.toConfig (l ++ t :: r).length := by
          rcases hcase with hl | hs
          · obtain ⟨l', r', hxs, hfits⟩ := hl.place
            intro hr
            refine hfits fun hr' => hr ?_
            have hlast := congrArg List.getLast? hxs
            obtain ⟨j, r₀, hr₀⟩ := List.exists_cons_of_ne_nil hr
            have hnd := h.linked.nodup
            rw [hr', List.getLast?_concat, hr₀, List.getLast?_append_of_ne_nil _ (by simp),
              List.getLast?_cons_cons] at hlast
            have htr : t ∈ r := hr₀ ▸ List.mem_of_getLast? hlast
            exact absurd (List.mem_append_right l htr) (List.nodup_middle.mp hnd).notMem
          · exact fun _ => hs.fits
        have hsplit : (l ++ t :: r).reverse ++ c.pool = r.reverse ++ t :: (l.reverse ++ c.pool) := by
          simp
        rw [hsplit] at hpool hold
        have hlen := length_le_of_sublist hpool hold
        rw [List.length_reverse] at hlen
        by_cases hr : r = []
        · rw [hr, List.length_nil, Nat.le_zero] at hlen
          rw [hlen]
          exact hwindow.fits_one
        · refine (hfits hr).mono ?_
          simp only [List.length_append, List.length_cons]
          omega
      · obtain ⟨a', b', hpool'⟩ := List.append_of_mem (hmem.resolve_left htx)
        rcases hcase with hl | hs
        · obtain ⟨l, r, rfl, -⟩ := hl.place
          simp at htx
        · have hsplit : xs.reverse ++ c.pool = (xs.reverse ++ a') ++ t :: b' := by simp [hpool']
          rw [hsplit] at hpool hold
          have hlen := length_le_of_sublist hpool hold
          refine (hs.pool a' b' hpool').mono ?_
          simp only [List.length_append, List.length_reverse] at hlen
          omega

protected theorem Ready.clear (h : Ready c xs) : Ready (clear c) [] := by
  have hconfig := (clear_frame h.layout).1
  have hnil : (fun _ => []) = onlyMain ([] : List ℕ) := by
    funext q
    cases q <;> rfl
  have hlayout := h.layout.clear
  rw [hnil] at hlayout
  refine ⟨⟨⟨?_, hlayout, fun i hi => ?_, fun i hi => ?_⟩, ?_, h.memo_clear, fun _ => rfl⟩,
    fun i hi => ?_⟩
  · rw [hconfig]
    exact h.policy
  · cases hi
  · cases hi
  · rw [hconfig]
    exact h.setup
  · cases hi

end PerformanceHelpers.PowerCache
