import PerformanceHelpers.PowerCache.Moves

/- The policies of one list: LRU, segmented LRU and SIEVE.

   `Listed c xs` says that the list of a cache is `xs` and that the end of the
   probation segment and the hand are on nodes of it. Each thing a call does to a
   node keeps it, and says where in the list the nodes are from then on. That the
   eviction candidate is on a node of the list (`Parked`) is not kept by everything:
   nothing moves it away from a node that is taken out of the middle. -/
namespace PerformanceHelpers.PowerCache
open Function (update update_self)

variable {K V : Type}

def Parked (c : Cache K V) (xs : List ℕ) : Prop := ∀ i ∈ c.evictionCandidate, i ∈ xs

structure Listed (c : Cache K V) (xs : List ℕ) : Prop where
  policy : c.policy ≠ .s3fifo
  layout : Layout c (onlyMain xs)
  boundary : ∀ i ∈ c.probationEnd, i ∈ xs
  hand : ∀ i ∈ c.sieveHand, i ∈ xs ∧ c.policy = .sieve

namespace Listed

variable {c c' : Cache K V} {xs ys l r : List ℕ} {i j : ℕ} {k : K} {v : V} {w e : ℚ}

section
variable (h : Listed c xs)
include h

theorem linked : Linked c.links c.main xs := h.layout.shape.chains.linked .main

theorem indexes : Indexes c.map c.key xs := h.layout.shape.index .main

theorem size_eq : c.map.size = xs.length := h.indexes.size_eq

theorem weight_eq : c.currentWeight = (xs.map c.weight).sum := by
  simpa [weightOf, onlyMain] using h.layout.weight

theorem queue (hi : i ∈ xs) : c.queue i = .main :=
  h.layout.shape.queue .main i hi

theorem length_le : xs.length ≤ c.nextNode := h.layout.shape.length_le .main

end

theorem prev_eq (h : Listed c (l ++ i :: r)) : c.links.prev i = l.getLast? :=
  (h.linked.links l i r rfl).1

theorem next_eq (h : Listed c (l ++ i :: r)) : c.links.next i = r.head? :=
  (h.linked.links l i r rfl).2

theorem notMem (h : Listed c (l ++ i :: r)) : i ∉ l ++ r :=
  (List.nodup_middle.mp h.linked.nodup).notMem

/-- Counters, callbacks, fetches and what the sketch counted are no part of the list. -/
theorem congr (h : Listed c xs) (hconfig : c'.toConfig = c.toConfig)
    (hfields : c'.toFields = c.toFields) (hheap : c'.toHeap = c.toHeap)
    (hweight : c'.currentWeight = c.currentWeight) : Listed c' xs := by
  refine ⟨?_, ⟨?_, ?_, ?_⟩, ?_, ?_⟩
  · rw [hconfig]
    exact h.policy
  · rw [hheap, hfields]
    exact h.layout.shape
  · rw [hweight, hfields]
    exact h.layout.weight
  · rw [hfields]
    exact h.layout.ghostWeight
  · rw [hheap]
    exact h.boundary
  · rw [hheap, hconfig]
    exact h.hand

variable [DecidableEq K]

protected theorem abortInflight (h : Listed c xs) (key : Option K) : Listed (abortInflight c key) xs :=
  h.congr abortInflight_toConfig abortInflight_toFields abortInflight_toHeap
    abortInflight_currentWeight

theorem get_iff (h : Listed c xs) : c.map.get k = some i ↔ i ∈ xs ∧ c.key i = some k :=
  h.indexes.get_iff k i

/-! ## Nodes that leave -/

end Listed

section
variable {c : Cache K V} {i : ℕ} [DecidableEq K]

theorem unlinkNode_probationEnd {adv : Bool} : (unlinkNode c i adv).probationEnd =
    if c.probationEnd = some i then c.links.prev i else c.probationEnd := by
  cases hp : c.policy <;> cases hq : c.queue i <;>
    simp only [unlinkNode, remove, dropRefs, hp, hq] <;> rfl

theorem unlinkNode_sieveHand {adv : Bool} : (unlinkNode c i adv).sieveHand =
    if c.policy = .sieve ∧ c.sieveHand = some i then
      c.links.next i <|> (detach c.links c.main i).2.head else c.sieveHand := by
  cases hp : c.policy <;> cases hq : c.queue i <;>
    simp only [unlinkNode, remove, dropRefs, hp, hq] <;> rfl

end

namespace Listed

variable {c c' : Cache K V} {xs ys l r : List ℕ} {i j : ℕ} {k : K} {v : V} {w e : ℚ}
  [DecidableEq K]

theorem unlinked {adv : Bool} (h : Listed c (l ++ i :: r)) (cs : Counters)
    (cbs : List (Callback K V)) :
    Listed (freeNode { unlinkNode c i adv with counters := cs, log := cbs } i) (l ++ r) := by
  have hi : i ∈ l ++ i :: r := by simp
  have hconfig : (unlinkNode c i adv).toConfig = c.toConfig := unlinkNode_toConfig
  have hmem : ∀ j ∈ l ++ i :: r, j ≠ i → j ∈ l ++ r := by
    intro j hj hne
    simpa [hne] using hj
  have hhead : ∀ j, (detach c.links c.main i).2.head = some j → j ∈ l ++ r := by
    intro j hj
    rw [h.linked.detach.head_eq] at hj
    exact List.mem_of_head? hj
  have hnext : ∀ j, c.links.next i = some j → j ∈ l ++ r := by
    intro j hj
    rw [h.next_eq] at hj
    exact List.mem_append_right l (List.mem_of_head? hj)
  have hlayout : Layout (freeNode { unlinkNode c i adv with counters := cs, log := cbs } i)
      (update (onlyMain (l ++ i :: r)) .main (l ++ r)) :=
    h.layout.drop rfl (Detached.of_main h.layout.shape hi) unlinkNode_toFields
      unlinkNode_currentWeight
  rw [onlyMain_update] at hlayout
  refine ⟨?_, hlayout, ?_, ?_⟩
  · show (unlinkNode c i adv).policy ≠ .s3fifo
    rw [hconfig]
    exact h.policy
  · intro j hj
    change (unlinkNode c i adv).probationEnd = some j at hj
    rw [unlinkNode_probationEnd] at hj
    split at hj
    · rw [h.prev_eq] at hj
      exact List.mem_append_left r (List.mem_of_getLast? hj)
    · next hb =>
      refine hmem j (h.boundary j hj) ?_
      rintro rfl
      exact hb hj
  · intro j hj
    change (unlinkNode c i adv).sieveHand = some j at hj
    change j ∈ l ++ r ∧ (unlinkNode c i adv).policy = .sieve
    rw [hconfig]
    rw [unlinkNode_sieveHand] at hj
    split at hj
    · next hsieve =>
      refine ⟨?_, hsieve.1⟩
      rw [Option.orElse_eq_orElse, Option.orElse_eq_or, Option.or_eq_some_iff] at hj
      rcases hj with hj | ⟨-, hj⟩
      · exact hnext j hj
      · exact hhead j hj
    · next hsieve =>
      obtain ⟨hj', hpol⟩ := h.hand j hj
      refine ⟨hmem j hj' ?_, hpol⟩
      rintro rfl
      exact hsieve ⟨hpol, hj⟩

/-- The candidate is not on a node that has gone, unless it was on it in the middle of the
list and was not to advance. -/
theorem parked_unlinked {adv : Bool} {cs : Counters} {cbs : List (Callback K V)}
    (h : Listed c (l ++ i :: r)) (hparked : Parked c (l ++ i :: r))
    (hcand : adv = false → c.evictionCandidate = some i → l = []) :
    Parked (freeNode { unlinkNode c i adv with counters := cs, log := cbs } i) (l ++ r) := by
  intro j hj
  change (unlinkNode c i adv).evictionCandidate = some j at hj
  rw [unlinkNode_candidate] at hj
  split at hj
  · rw [h.linked.detach.head_eq] at hj
    exact List.mem_of_head? hj
  · next hp =>
    split at hj
    · rw [h.next_eq] at hj
      exact List.mem_append_right l (List.mem_of_head? hj)
    · next hadv =>
      have hne : j ≠ i := by
        rintro rfl
        have hl := hcand (by simpa using hadv) hj
        exact hp (by rw [h.prev_eq, hl]; rfl)
      simpa [hne] using hparked j hj

/-! ## Nodes that are used -/

omit [DecidableEq K] in
theorem tail_iff (h : Listed c (l ++ i :: r)) : c.main.tail = some i ↔ r = [] := by
  rw [← h.linked.next_none_iff (by simp), h.next_eq, List.head?_eq_none_iff]

end Listed

/-- Where the nodes are once `i` was used. SIEVE only marks it. -/
def usedOrder (policy : Policy) (l : List ℕ) (i : ℕ) (r : List ℕ) : List ℕ :=
  if policy = .sieve then l ++ i :: r else l ++ r ++ [i]

theorem usedOrder_perm (policy : Policy) (l : List ℕ) (i : ℕ) (r : List ℕ) :
    (usedOrder policy l i r).Perm (l ++ i :: r) := by
  unfold usedOrder
  split
  · exact List.Perm.refl _
  · exact perm_behind l i r

section
variable {c : Cache K V} {i : ℕ} [DecidableEq K]

theorem moveToTail_slru (hpol : c.policy = .slru) : moveToTail c i = protect c i := by
  simp only [moveToTail, hpol]

theorem moveToTail_sieve (hpol : c.policy = .sieve) :
    moveToTail c i = { c with visited := update c.visited i true } := by
  simp only [moveToTail, hpol]

theorem protect_frame : (protect c i).toConfig = c.toConfig ∧ (protect c i).toFields = c.toFields ∧
    (protect c i).currentWeight = c.currentWeight := by
  simp only [protect]
  split
  · exact ⟨rfl, rfl, rfl⟩
  · exact ⟨remove_toConfig, remove_toFields, remove_currentWeight⟩

/-- What is used keeps its contents. -/
theorem moveToTail_frame_list (hpol : c.policy ≠ .s3fifo) (hwindow : PastWindow c i) :
    (moveToTail c i).toConfig = c.toConfig ∧ (moveToTail c i).toFields = c.toFields ∧
      (moveToTail c i).currentWeight = c.currentWeight := by
  cases hp : c.policy with
  | s3fifo => exact absurd hp hpol
  | lru =>
    rw [moveToTail_lru hp hwindow]
    split
    · exact ⟨rfl, rfl, rfl⟩
    · exact ⟨remove_toConfig, remove_toFields, remove_currentWeight⟩
  | slru =>
    rw [moveToTail_slru hp]
    exact protect_frame
  | sieve =>
    rw [moveToTail_sieve hp]
    exact ⟨rfl, rfl, rfl⟩

end

namespace Listed

variable {c c' : Cache K V} {xs ys l r : List ℕ} {i j : ℕ} {k : K} {v : V} {w e : ℚ}
  [DecidableEq K]

section
variable (h : Listed c (l ++ i :: r))
include h

/-- In the list a node has left, the cursors are on other nodes. -/
protected theorem remove :
    Chains (remove c i).links (remove c i).toHeap.ends (onlyMain (l ++ r)) ∧
      (remove c i).evictionCandidate =
        (if l = [] then r.head? else c.evictionCandidate) ∧
      (remove c i).probationEnd =
        if c.probationEnd = some i then l.getLast? else c.probationEnd := by
  have hchains := (h.layout.shape.chains_removed (l := l) (i := i) (r := r) rfl).1
  rw [onlyMain_update] at hchains
  refine ⟨hchains, ?_, ?_⟩
  · rw [remove_main (h.queue (by simp))]
    simp only [h.prev_eq, h.linked.detach.head_eq, List.getLast?_eq_none_iff]
    by_cases hl : l = []
    · simp [hl]
    · simp [hl]
  · rw [remove_main (h.queue (by simp))]
    simp only [h.prev_eq]

protected theorem protect (hpol : c.policy = .slru) :
    Listed (protect c i) (l ++ r ++ [i]) ∧
      (protect c i).evictionCandidate = (if l = [] ∧ r ≠ [] then r.head? else c.evictionCandidate) ∧
      (protect c i).probationEnd =
        if c.probationEnd = some i then l.getLast? else c.probationEnd := by
  obtain ⟨hconfig, hfields, hweight⟩ := protect_frame (c := c) (i := i)
  have hperm : (l ++ r ++ [i]).Perm (l ++ i :: r) := perm_behind l i r
  have hmem : ∀ j, j ∈ l ++ i :: r → j ∈ l ++ r ++ [i] := fun j hj => hperm.mem_iff.mpr hj
  have hhand : c.sieveHand = none := by
    cases hs : c.sieveHand with
    | none => rfl
    | some j => exact absurd (hpol.symm.trans (h.hand j hs).2) (by simp)
  have hlast : ∀ j, (if c.probationEnd = some i then l.getLast? else c.probationEnd) = some j →
      j ∈ l ++ r ++ [i] := by
    intro j hj
    split at hj
    · exact hmem j (List.mem_append_left _ (List.mem_of_getLast? hj))
    · exact hmem j (h.boundary j hj)
  by_cases hr : r = []
  · -- it is there already
    have htail : c.main.tail = some i := h.tail_iff.mpr hr
    have hprotect : protect c i = { c with
        probationEnd := if c.probationEnd = some i then l.getLast? else c.probationEnd } := by
      simp only [protect, htail, if_true, h.prev_eq]
    have hsame : l ++ r ++ [i] = l ++ i :: r := by simp [hr]
    rw [hprotect, hsame]
    rw [hsame] at hlast
    refine ⟨⟨h.policy, ⟨h.layout.shape.marked _ _ _ _ _ _ _, h.layout.weight,
      h.layout.ghostWeight⟩, hlast, h.hand⟩, ?_, rfl⟩
    simp [hr]
  · have htail : c.main.tail ≠ some i := fun htail => hr (h.tail_iff.mp htail)
    obtain ⟨hchains, hcand, hbound⟩ := h.remove
    have hprotect : protect c i = { remove c i with
        links := insertBetween (remove c i).links (remove c i).main.tail none i
        main := { (remove c i).main with tail := some i }
        probationEnd := if c.probationEnd = some i then l.getLast? else c.probationEnd } := by
      have hbound' : (if c.probationEnd = some i then l.getLast?
          else (remove c i).probationEnd) =
          if c.probationEnd = some i then l.getLast? else c.probationEnd := by
        rw [hbound]
        split <;> rfl
      simp only [protect, htail, if_false, h.prev_eq, hbound']
    have hmain : Linked (remove c i).links (remove c i).main (l ++ r) :=
      hchains.linked .main
    have hnew := hchains.insertBetween (k := Queue.main) (i := i) (l := l ++ r) (r := [])
      { (remove c i).main with tail := some i }
      (fun q hq => by
        cases q with
        | main => exact h.notMem hq
        | small | ghost => cases hq)
      (List.append_nil _).symm
      (by
        rw [hmain.head_eq]
        cases l <;> cases r <;> simp_all)
      (by simp)
    rw [← hmain.tail_eq, onlyMain_update] at hnew
    have hends : (protect c i).toHeap.ends = update
        (remove c i).toHeap.ends .main
        { (remove c i).main with tail := some i } := by
      rw [hprotect]
      funext q
      cases q <;> rfl
    have hkept : Kept c.toHeap (protect c i).toHeap := by
      rw [hprotect]
      refine (kept_remove (h.queue (i := i) (by simp))).trans ?_
      exact ⟨by funext q; cases q <;> rfl, rfl, rfl, rfl, rfl, rfl, rfl, rfl⟩
    have hlayout := h.layout.reordered hfields hweight hkept hperm (by
      rw [onlyMain_update, hends, hprotect]
      exact hnew)
    rw [onlyMain_update] at hlayout
    have hcand' : (protect c i).evictionCandidate =
        if l = [] then r.head? else c.evictionCandidate := by
      rw [hprotect]
      exact hcand
    have hbound' : (protect c i).probationEnd =
        if c.probationEnd = some i then l.getLast? else c.probationEnd := by
      rw [hprotect]
    have hhand' : (protect c i).sieveHand = none := by
      rw [hprotect, remove_main (h.queue (by simp))]
      simp [hpol, hhand]
    refine ⟨⟨?_, hlayout, ?_, ?_⟩, ?_, hbound'⟩
    · rw [hconfig]
      exact h.policy
    · intro j hj
      rw [hbound'] at hj
      exact hlast j hj
    · intro j hj
      rw [hhand'] at hj
      cases hj
    · rw [hcand']
      simp [hr]

theorem moveToTail_lru (hpol : c.policy = .lru)
    (hwindow : PastWindow c i) :
    Listed (moveToTail c i) (l ++ r ++ [i]) ∧
      (moveToTail c i).evictionCandidate = if l = [] ∧ r ≠ [] then r.head? else c.evictionCandidate := by
  have hperm : (l ++ r ++ [i]).Perm (l ++ i :: r) := perm_behind l i r
  have hmem : ∀ j, j ∈ l ++ i :: r → j ∈ l ++ r ++ [i] := fun j hj => hperm.mem_iff.mpr hj
  have hhand : c.sieveHand = none := by
    cases hs : c.sieveHand with
    | none => rfl
    | some j => exact absurd (hpol.symm.trans (h.hand j hs).2) (by simp)
  obtain ⟨hconfig, hfields, hweight⟩ := moveToTail_frame_list h.policy hwindow
  have hshape := h.layout.shape.moveToTail_lru hpol hwindow (l := l) (r := r) rfl
  rw [onlyMain_update] at hshape
  have hlayout : Layout (moveToTail c i) (onlyMain (l ++ r ++ [i])) := by
    refine ⟨?_, ?_, by simp [onlyMain]⟩
    · rw [hfields]
      exact hshape
    · have hsum : weightOf c.weight (update (onlyMain (l ++ i :: r)) .main _) = _ :=
        weightOf_reorder hperm
      rw [onlyMain_update] at hsum
      rw [hweight, hfields, hsum]
      exact h.layout.weight
  rw [PowerCache.moveToTail_lru hpol hwindow] at hlayout hconfig ⊢
  by_cases hr : r = []
  · have htail : c.main.tail = some i := h.tail_iff.mpr hr
    rw [if_pos htail]
    subst hr
    refine ⟨?_, by simp⟩
    simpa using h
  · have htail : c.main.tail ≠ some i := fun htail => hr (h.tail_iff.mp htail)
    rw [if_neg htail] at hlayout hconfig ⊢
    obtain ⟨hchains, hcand, hbound⟩ := h.remove
    have hmain : Linked (remove c i).links (remove c i).main (l ++ r) :=
      hchains.linked .main
    have htail' : (remove c i).main.tail ≠ none := fun hnone => by
      have hnil := hmain.tail_none_iff.mp hnone
      simp [hr] at hnil
    have hcand' : (appendList (remove c i) i).evictionCandidate =
        if l = [] then r.head? else c.evictionCandidate := by
      simp only [appendList, htail', if_false, hcand]
    have hbound' : (appendList (remove c i) i).probationEnd =
        if c.probationEnd = some i then l.getLast? else c.probationEnd := by
      simp only [appendList, htail', false_and, if_false, hbound]
    have hhand' : (appendList (remove c i) i).sieveHand = none := by
      simp only [appendList, htail', false_and, if_false]
      rw [remove_main (h.queue (by simp))]
      simp [hpol, hhand]
    refine ⟨⟨?_, hlayout, ?_, ?_⟩, ?_⟩
    · rw [hconfig]
      exact h.policy
    · intro j hj
      rw [hbound'] at hj
      split at hj
      · exact hmem j (List.mem_append_left _ (List.mem_of_getLast? hj))
      · exact hmem j (h.boundary j hj)
    · intro j hj
      rw [hhand'] at hj
      cases hj
    · rw [hcand']
      simp [hr]

protected theorem moveToTail (hwindow : PastWindow c i) :
    Listed (moveToTail c i) (usedOrder c.policy l i r) ∧ (moveToTail c i).evictionCandidate =
      if c.policy ≠ .sieve ∧ l = [] ∧ r ≠ [] then r.head? else c.evictionCandidate := by
  cases hp : c.policy with
  | s3fifo => exact absurd hp h.policy
  | lru =>
    simp only [usedOrder, ne_eq, reduceCtorEq, not_false_eq_true, true_and, if_false]
    exact h.moveToTail_lru hp hwindow
  | slru =>
    simp only [usedOrder, ne_eq, reduceCtorEq, not_false_eq_true, true_and, if_false]
    rw [moveToTail_slru hp]
    exact ⟨(h.protect hp).1, (h.protect hp).2.1⟩
  | sieve =>
    simp only [usedOrder, ne_eq, not_true_eq_false, false_and, if_true, if_false]
    rw [moveToTail_sieve hp]
    exact ⟨⟨h.policy, ⟨h.layout.shape.marked _ _ _ _ _ _ _, h.layout.weight,
      h.layout.ghostWeight⟩, h.boundary, h.hand⟩, rfl⟩

theorem parked_moveToTail (hparked : Parked c (l ++ i :: r))
    (hwindow : PastWindow c i) : Parked (moveToTail c i) (usedOrder c.policy l i r) := by
  have hmem : ∀ j, j ∈ l ++ i :: r → j ∈ usedOrder c.policy l i r := fun j hj =>
    (usedOrder_perm c.policy l i r).mem_iff.mpr hj
  intro j hj
  rw [Option.mem_def, (h.moveToTail hwindow).2] at hj
  split at hj
  · exact hmem j (by simp [List.mem_of_head? hj])
  · exact hmem j (hparked j hj)

end

omit [DecidableEq K] in
theorem write (h : Listed c xs) (hi : i ∈ xs) (value : ℕ → Option V) (w x : ℚ) :
    Listed { c with
      currentWeight := c.currentWeight - c.weight i + w
      value, weight := update c.weight i w
      expiresAt := update c.expiresAt i x } xs := by
  obtain ⟨l, r, rfl⟩ := List.append_of_mem hi
  have hnot := h.notMem
  have hold : ∀ j ∈ l ++ r, update c.weight i w j = c.weight j :=
    fun j hj => Function.update_of_ne (by rintro rfl; exact hnot hj) _ _
  have hsum : ((l ++ i :: r).map (update c.weight i w)).sum =
      ((l ++ i :: r).map c.weight).sum - c.weight i + w := by
    have hl := List.map_congr_left fun j hj => hold j (List.mem_append_left r hj)
    have hr := List.map_congr_left fun j hj => hold j (List.mem_append_right l hj)
    simp only [List.map_append, List.map_cons, hl, hr, update_self, List.sum_append,
      List.sum_cons]
    ring
  refine ⟨h.policy, ⟨h.layout.shape, ?_, by simp [onlyMain]⟩, h.boundary, h.hand⟩
  simp only [weightOf, onlyMain, List.append_nil, hsum, ← h.weight_eq]

end Listed

/-! ## New nodes -/

section
variable {c : Cache K V} {l r : List ℕ} {i : ℕ} {k : K} {v : V} {w e : ℚ} [DecidableEq K]

omit [DecidableEq K] in
/-- The node goes behind the probation segment `l`. -/
theorem insertIntoProbation_eq (h : Linked c.links c.main (l ++ r)) (hne : l ++ r ≠ [])
    (hboundary : c.probationEnd = l.getLast?) : insertIntoProbation c i = { c with
      links := insertBetween c.links l.getLast? r.head? i
      main := ⟨(l ++ i :: r).head?, (l ++ i :: r).getLast?⟩
      evictionCandidate := if l = [] then some i else c.evictionCandidate
      probationEnd := some i } := by
  have hhead := h.head_eq
  have htail := h.tail_eq
  rcases List.eq_nil_or_concat' l with rfl | ⟨l, b, rfl⟩
  · -- in front of the list
    cases r with
    | nil => simp at hne
    | cons j r =>
      have hends : (⟨some i, c.main.tail⟩ : Ends ℕ) = ⟨some i, (i :: j :: r).getLast?⟩ := by
        rw [htail]
        simp
      simp only [insertIntoProbation, hboundary, List.getLast?_nil, hhead, List.nil_append, if_true,
        List.head?_cons, hends]
  · have hb : (l ++ [b]).getLast? = some b := by simp
    have hl : l ++ [b] ≠ [] := by simp
    rw [hb] at hboundary
    have htail' : c.main.tail = some b ↔ r = [] := by
      have hmem : b ∈ l ++ [b] ++ r := by simp
      rw [← h.next_none_iff hmem, (h.links l b r (by simp)).2, List.head?_eq_none_iff]
    cases r with
    | nil =>
      have hends : (⟨c.main.head, some i⟩ : Ends ℕ) =
          ⟨(l ++ [b] ++ [i]).head?, (l ++ [b] ++ [i]).getLast?⟩ := by
        rw [hhead, List.getLast?_concat]
        cases l <;> simp
      simp only [insertIntoProbation, hboundary, htail'.mpr rfl, if_true, hb, hl, if_false,
        List.head?_nil, hends]
    | cons j r =>
      have hnext : c.links.next b = some j := (h.links l b (j :: r) (by simp)).2
      have hends : c.main = ⟨(l ++ [b] ++ i :: j :: r).head?, (l ++ [b] ++ i :: j :: r).getLast?⟩ := by
        ext1
        · rw [hhead]
          cases l <;> simp
        · rw [htail]
          simp
      have hne' : c.main.tail ≠ some b := fun htail => by simpa using htail'.mp htail
      simp only [insertIntoProbation, hboundary, hne', if_false, hnext, hb, hl, List.head?_cons,
        ← hends]

omit [DecidableEq K] in
theorem takeNode_frame : (takeNode c).1.probationEnd = c.probationEnd ∧
    (takeNode c).1.sieveHand = c.sieveHand ∧ (takeNode c).1.main = c.main := by
  cases hp : c.pool <;> simp only [takeNode, hp, and_self]

def Place (c : Cache K V) (l r : List ℕ) : Prop :=
  if c.policy = .slru then c.probationEnd = l.getLast? else r = []

theorem appendList_place (h : Chains c.links c.toHeap.ends (onlyMain l))
    (hi : ∀ q, i ∉ onlyMain l q) (hp : c.links.prev i = none) :
    Chains (appendList c i).links (appendList c i).toHeap.ends (onlyMain (l ++ [i])) ∧
      (appendList c i).evictionCandidate = (if l = [] then some i else c.evictionCandidate) ∧
      (appendList c i).probationEnd =
        (if c.policy = .slru ∧ l = [] then some i else c.probationEnd) ∧
      (appendList c i).sieveHand = if c.policy = .sieve ∧ l = [] then some i else c.sieveHand := by
  have hlinked : Linked c.links c.main l := h.linked .main
  have hends : (appendList c i).toHeap.ends =
      update c.toHeap.ends .main (attach c.links c.main i).2 := by
    funext q
    cases q <;> rfl
  have hattached := h.attach hi hp Queue.main
  rw [onlyMain_update] at hattached
  refine ⟨?_, ?_, ?_, ?_⟩
  · rw [hends]
    exact hattached
  · simp only [appendList, hlinked.tail_none_iff]
  · simp only [appendList, hlinked.tail_none_iff, and_comm]
  · simp only [appendList, hlinked.tail_none_iff, and_comm]

theorem append_place (hpol : c.policy ≠ .s3fifo)
    (h : Chains c.links c.toHeap.ends (onlyMain (l ++ r))) (hi : ∀ q, i ∉ onlyMain (l ++ r) q)
    (hp : c.links.prev i = none) (hplace : Place c l r) :
    Chains (append c i).links (append c i).toHeap.ends (onlyMain (l ++ i :: r)) ∧
      (append c i).evictionCandidate = (if l = [] then some i else c.evictionCandidate) ∧
      (append c i).probationEnd = (if c.policy = .slru then some i else c.probationEnd) ∧
      (append c i).sieveHand = if c.policy = .sieve ∧ l = [] then some i else c.sieveHand := by
  have hlinked : Linked c.links c.main (l ++ r) := h.linked .main
  cases hpolicy : c.policy with
  | s3fifo => exact absurd hpolicy hpol
  | lru | sieve =>
    have hr : r = [] := by simpa [Place, hpolicy] using hplace
    subst hr
    rw [List.append_nil] at h hi
    have hlist := appendList_place h hi hp
    simp only [hpolicy, reduceCtorEq, false_and, if_false, true_and] at hlist
    simpa only [append, hpolicy, reduceCtorEq, false_and, if_false, true_and] using hlist
  | slru =>
    have hboundary : c.probationEnd = l.getLast? := by simpa [Place, hpolicy] using hplace
    by_cases hnil : l ++ r = []
    · obtain ⟨rfl, rfl⟩ := List.append_eq_nil_iff.mp hnil
      have htail : c.main.tail = none := hlinked.tail_none_iff.mpr hnil
      have hlist := appendList_place (l := []) h hi hp
      simp only [hpolicy, reduceCtorEq, false_and, if_false, and_self, if_true] at hlist
      simpa only [append, hpolicy, htail, if_true, reduceCtorEq, false_and, if_false] using hlist
    · have htail : c.main.tail ≠ none := fun htail => hnil (hlinked.tail_none_iff.mp htail)
      have happend : append c i = insertIntoProbation c i := by
        simp only [append, hpolicy, htail, if_false]
      rw [happend, insertIntoProbation_eq hlinked hnil hboundary]
      have hnew := h.insertBetween (k := Queue.main) (i := i) (l := l) (r := r)
        ⟨(l ++ i :: r).head?, (l ++ i :: r).getLast?⟩ hi rfl rfl rfl
      rw [onlyMain_update] at hnew
      refine ⟨?_, rfl, rfl, by simp⟩
      have hends : ∀ links candidate probationEnd, Heap.ends { c.toHeap with
          links, main := ⟨(l ++ i :: r).head?, (l ++ i :: r).getLast?⟩
          evictionCandidate := candidate, probationEnd } =
          update c.toHeap.ends .main ⟨(l ++ i :: r).head?, (l ++ i :: r).getLast?⟩ := by
        intro links candidate probationEnd
        funext q
        cases q <;> rfl
      rw [hends]
      exact hnew

end

namespace Listed

variable {c : Cache K V} {l r : List ℕ} {k : K} {v : V} {w e : ℚ} [DecidableEq K]

protected theorem insertNode (h : Listed c (l ++ r)) (hfresh : c.map.get k = none) (hplace : Place c l r) :
    Listed (insertNode c k v w e) (l ++ (takeNode c).2 :: r) ∧
      (insertNode c k v w e).evictionCandidate =
        (if l = [] then some (takeNode c).2 else c.evictionCandidate) ∧
      (insertNode c k v w e).probationEnd =
        (if c.policy = .slru then some (takeNode c).2 else c.probationEnd) ∧
      (insertNode c k v w e).sieveHand =
        if c.policy = .sieve ∧ l = [] then some (takeNode c).2 else c.sieveHand := by
  obtain ⟨hboundary, hhand, -⟩ := takeNode_frame (c := c)
  have halloc := h.layout.shape.allocNode (k := k) (v := v) (w := w) (e := e)
  have hi : ∀ q, (takeNode c).2 ∉ onlyMain (l ++ r) q :=
    h.layout.shape.takeNode.held_notMem List.mem_cons_self
  have hpol : (allocNode c k v w e).1.policy = c.policy := allocNode_policy
  have hboundary' : (allocNode c k v w e).1.probationEnd = c.probationEnd := hboundary
  have hhand' : (allocNode c k v w e).1.sieveHand = c.sieveHand := hhand
  have hcand' : (allocNode c k v w e).1.evictionCandidate = c.evictionCandidate :=
    takeNode_evictionCandidate
  have hqueue : entryQueue c.policy = .main := by
    cases hp : c.policy with
    | s3fifo => exact absurd hp h.policy
    | lru | slru | sieve => rfl
  obtain ⟨hchains, hcand, hbound, hsieve⟩ := append_place (c := { (allocNode c k v w e).1 with
      map := (allocNode c k v w e).1.map.set k (takeNode c).2 }) (i := (takeNode c).2)
    (by rw [show _ = c.policy from hpol]; exact h.policy) halloc.chains hi
    (update_self _ _ _) (by simpa only [Place, hpol, hboundary'] using hplace)
  have hinsert := insertNode_list (k := k) (v := v) (w := w) (e := e) h.policy
  have hfresh' : ∀ q, (c.toHeap.index q).get k = none := by
    intro q
    cases q with
    | main => exact hfresh
    | small | ghost =>
      rw [Option.eq_none_iff_forall_ne_some]
      intro j hj
      have hmem := (((h.layout.shape.index _).get_iff k j).mp hj).1
      simp [onlyMain] at hmem
  have hperm : (l ++ (takeNode c).2 :: r).Perm
      ((takeNode c).2 :: onlyMain (l ++ r) (entryQueue c.policy)) := by
    rw [hqueue]
    exact List.perm_middle
  have hlayout := h.layout.insertNode (k := k) (v := v) (w := w) (e := e) hfresh' hperm (by
      rw [hqueue, onlyMain_update, hinsert]
      exact hchains)
  rw [hqueue, onlyMain_update] at hlayout
  obtain ⟨hconfig, -, -, -⟩ := insertNode_frame (c := c) (k := k) (v := v) (w := w) (e := e)
  have hmem : ∀ j ∈ l ++ r, j ∈ l ++ (takeNode c).2 :: r := by
    intro j hj
    rcases List.mem_append.mp hj with hj | hj <;> simp [hj]
  have hmemi : (takeNode c).2 ∈ l ++ (takeNode c).2 :: r := by simp
  have hcand'' : (insertNode c k v w e).evictionCandidate =
      if l = [] then some (takeNode c).2 else c.evictionCandidate := by
    rw [hinsert]
    refine hcand.trans ?_
    simp only [hcand']
  have hbound'' : (insertNode c k v w e).probationEnd =
      if c.policy = .slru then some (takeNode c).2 else c.probationEnd := by
    rw [hinsert]
    refine hbound.trans ?_
    simp only [hpol, hboundary']
  have hsieve'' : (insertNode c k v w e).sieveHand =
      if c.policy = .sieve ∧ l = [] then some (takeNode c).2 else c.sieveHand := by
    rw [hinsert]
    refine hsieve.trans ?_
    simp only [hpol, hhand']
  refine ⟨⟨?_, hlayout, fun j hj => ?_, fun j hj => ?_⟩, hcand'', hbound'', hsieve''⟩
  · rw [hconfig]
    exact h.policy
  · rw [hbound''] at hj
    split at hj
    · cases hj
      exact hmemi
    · exact hmem j (h.boundary j hj)
  · rw [hsieve''] at hj
    rw [hconfig]
    split at hj
    · next hs =>
      cases hj
      exact ⟨hmemi, hs.1⟩
    · exact ⟨hmem j (h.hand j hj).1, (h.hand j hj).2⟩

theorem parked_insertNode (h : Listed c (l ++ r)) (hparked : Parked c (l ++ r))
    (hfresh : c.map.get k = none) (hplace : Place c l r) :
    Parked (insertNode c k v w e) (l ++ (takeNode c).2 :: r) := by
  intro j hj
  rw [Option.mem_def, (h.insertNode hfresh hplace).2.1] at hj
  split at hj
  · cases hj
    simp
  · rcases List.mem_append.mp (hparked j hj) with hj | hj <;> simp [hj]

end Listed

end PerformanceHelpers.PowerCache
