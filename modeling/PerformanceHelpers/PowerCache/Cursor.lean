import PerformanceHelpers.PowerCache.ListSteps

/- Where the eviction candidate points.

   A sweep starts from the candidate, or from the head where there is none. What is
   inserted, used, deleted or swept away moves the two together (`AtHead`), whatever
   the list: a node that comes to the head takes the candidate with it, and the head
   that goes leaves both to its successor. An eviction moves the candidate to the node
   behind the victim, which is the head only if the victim was. -/
namespace PerformanceHelpers.PowerCache

variable {K V : Type}

def AtHead (c : Cache K V) : Prop :=
  c.evictionCandidate = none ∨ c.evictionCandidate = c.main.head

variable {c c' : Cache K V} {xs l r : List ℕ} {i : ℕ} {k : K} {v : V} {w x now : ℚ}

theorem AtHead.congr (h : AtHead c) (hcand : c'.evictionCandidate = c.evictionCandidate)
    (hmain : c'.main = c.main) : AtHead c' := by
  unfold AtHead
  rw [hcand, hmain]
  exact h

theorem AtHead.heap (h : AtHead c) (hheap : c'.toHeap = c.toHeap) : AtHead c' := by
  apply h.congr <;> rw [hheap]

protected theorem AtHead.victim (h : AtHead c) : victim c = c.main.head := by
  unfold victim
  rcases h with h | h
  · rw [h]
    rfl
  · rw [h]
    cases c.main.head <;> rfl

theorem Ready.head_droppable (h : Ready c xs) (hhead : AtHead c) (hi : i ∈ xs) : Droppable c i := by
  intro hcand
  obtain ⟨l, r, rfl⟩ := List.append_of_mem hi
  have hfirst : c.main.head = some i := by
    rcases hhead with hnone | hhead
    · rw [hnone] at hcand
      cases hcand
    · rw [← hhead, hcand]
  rw [h.prev_eq, h.first (h.linked.head_eq.symm.trans hfirst)]
  rfl

theorem Ready.atHead (h : Ready c xs) (hsteady : Steady c.toConfig) : AtHead c :=
  Or.inr ((h.headed hsteady).trans h.linked.head_eq.symm)

variable [DecidableEq K]

/-! ## Nodes that leave -/

section
variable (h : AtHead c)
include h

protected theorem AtHead.remove (hpol : c.policy ≠ .s3fifo) : AtHead (remove c i) := by
  have hcand : (remove c i).evictionCandidate =
      if c.links.prev i = none then (detach c.links c.main i).2.head else c.evictionCandidate := by
    cases hp : c.policy with
    | s3fifo => exact absurd hp hpol
    | lru | slru | sieve => simp only [remove, hp]
  have hmain : (remove c i).main = (detach c.links c.main i).2 := by
    cases hp : c.policy with
    | s3fifo => exact absurd hp hpol
    | lru | slru | sieve => simp only [remove, hp]
  unfold AtHead
  rw [hcand, hmain]
  simp only [detach]
  split
  · exact Or.inr rfl
  · exact h

/-- The candidate of `_unlinkNode` that advances is the head if the node was the first, and
none if it was the last. -/
protected theorem AtHead.unlinkNode {advance : Bool} (hpol : c.policy ≠ .s3fifo)
    (hends : advance = true → c.links.prev i = none ∨ c.links.next i = none) :
    AtHead (unlinkNode c i advance) := by
  have hmain : (unlinkNode c i advance).main = (detach c.links c.main i).2 := by
    cases hp : c.policy with
    | s3fifo => exact absurd hp hpol
    | lru | slru | sieve => simp only [unlinkNode, remove, dropRefs, hp]
  unfold AtHead
  rw [unlinkNode_candidate, hmain]
  simp only [detach]
  split
  · exact Or.inr rfl
  · next hprev =>
    split
    · next hadvance => exact Or.inl ((hends hadvance).resolve_left hprev)
    · exact h

theorem AtHead.dropNode {advance : Bool} {reason : String}
    (hpol : c.policy ≠ .s3fifo)
    (hends : advance = true → c.links.prev i = none ∨ c.links.next i = none) :
    AtHead (dropNode (unlinkNode c i advance) i reason) :=
  (h.unlinkNode hpol hends).congr rfl rfl

protected theorem AtHead.abortInflight (key : Option K) : AtHead (abortInflight c key) :=
  h.heap abortInflight_toHeap

theorem AtHead.removeExpiredNode (hpol : c.policy ≠ .s3fifo) :
    AtHead (removeExpiredNode c i) := by
  have hunlink : AtHead (unlinkNode c i false) := h.unlinkNode hpol (by simp)
  exact hunlink.congr rfl rfl

/-! ## Nodes that come in or are used -/

omit [DecidableEq K] in
protected theorem AtHead.appendList : AtHead (appendList c i) := by
  unfold AtHead
  simp only [appendList, attach]
  cases htail : c.main.tail with
  | none => exact Or.inr rfl
  | some t => exact h

omit [DecidableEq K] in
protected theorem AtHead.insertIntoProbation : AtHead (insertIntoProbation c i) := by
  unfold insertIntoProbation
  cases hend : c.probationEnd with
  | none => exact Or.inr rfl
  | some b =>
    simp only []
    split
    · exact h
    · split
      · exact h
      · exact h

protected theorem AtHead.append (hpol : c.policy ≠ .s3fifo) : AtHead (append c i) := by
  cases hp : c.policy with
  | s3fifo => exact absurd hp hpol
  | lru | sieve =>
    simp only [append, hp]
    exact h.appendList
  | slru =>
    simp only [append, hp]
    split
    · exact h.appendList
    · exact h.insertIntoProbation

protected theorem AtHead.insertNode (hpol : c.policy ≠ .s3fifo) :
    AtHead (insertNode c k v w x) := by
  have halloc : AtHead (allocNode c k v w x).1 :=
    h.congr takeNode_evictionCandidate takeNode_frame.2.2
  have hpol' : (allocNode c k v w x).1.policy ≠ .s3fifo := by
    rw [allocNode_policy]
    exact hpol
  rw [insertNode_list hpol]
  have hmapped : AtHead { (allocNode c k v w x).1 with
      map := (allocNode c k v w x).1.map.set k (takeNode c).2 } := halloc.congr rfl rfl
  exact (hmapped.append (i := (takeNode c).2) hpol').congr rfl rfl

protected theorem AtHead.protect (hpol : c.policy ≠ .s3fifo) : AtHead (protect c i) := by
  simp only [protect]
  split
  · exact h.congr rfl rfl
  · exact h.remove hpol

end

omit [DecidableEq K] in
/-- Asking for the oldest node of the window moves nothing. -/
theorem windowOldest_frame (c : Cache K V) : ∃ memo tail,
    (windowOldest c).1 = { c with windowStartMemo := memo, windowTail := tail } := by
  rcases windowOldest_cases c with ⟨m, -, -, h⟩ | h
  · exact ⟨c.windowStartMemo, c.windowTail, by rw [h]⟩
  · exact ⟨_, _, by rw [h]⟩

omit [DecidableEq K] in
protected theorem AtHead.insertAtMainSpaceMrU (h : AtHead c) : AtHead (insertAtMainSpaceMrU c i) := by
  obtain ⟨memo, tail, hframe⟩ := windowOldest_frame c
  unfold insertAtMainSpaceMrU
  generalize windowOldest c = old at hframe
  obtain ⟨c', oldest⟩ := old
  obtain rfl : c' = { c with windowStartMemo := memo, windowTail := tail } := hframe
  have h' : AtHead { c with windowStartMemo := memo, windowTail := tail } := h
  cases oldest with
  | none => exact h'.appendList
  | some start =>
    unfold AtHead
    simp only []
    split
    · exact Or.inr rfl
    · exact h'

protected theorem AtHead.moveToTail (h : AtHead c) (hpol : c.policy ≠ .s3fifo) : AtHead (moveToTail c i) := by
  have hpol' : (remove c i).policy ≠ .s3fifo := by
    rw [remove_toConfig]
    exact hpol
  cases hp : c.policy with
  | s3fifo => exact absurd hp hpol
  | slru =>
    rw [moveToTail_slru hp]
    exact h.protect hpol
  | sieve =>
    rw [moveToTail_sieve hp]
    exact h.congr rfl rfl
  | lru =>
    simp only [moveToTail, hp]
    split
    · exact (h.remove hpol).insertAtMainSpaceMrU
    · split
      · exact h
      · exact (h.remove hpol).append hpol'

protected theorem AtHead.updateExisting (h : AtHead c) (hpol : c.policy ≠ .s3fifo) :
    AtHead (updateExisting c i v w x) := by
  have hwrite : AtHead { c with
      currentWeight := c.currentWeight - c.weight i + w
      value := Function.update c.value i (some v)
      weight := Function.update c.weight i w
      expiresAt := Function.update c.expiresAt i x } := h
  exact hwrite.moveToTail hpol

/-! ## Reads -/

omit [DecidableEq K] in
protected theorem AtHead.countMiss (h : AtHead c) (count : Bool) : AtHead (countMiss c count) := by
  cases count <;> exact h

theorem fetchValidNode_found {ign count : Bool}
    (h : fetchValidNode c k ign count now = (c', some i)) : c' = c := by
  unfold fetchValidNode at h
  split at h
  · cases h
  · split at h
    · cases h
    · split at h
      · cases h
      · cases h
        rfl

protected theorem AtHead.fetchValidNode {ign count : Bool} (h : AtHead c) (hpol : c.policy ≠ .s3fifo) :
    AtHead (fetchValidNode c k ign count now).1 := by
  unfold fetchValidNode
  split
  · exact h.countMiss count
  · split
    · exact h.countMiss count
    · split
      · exact (h.removeExpiredNode hpol).countMiss count
      · exact h

protected theorem AtHead.getManyOne {ign : Bool} {vs : List (K × Option V)} {q : K × ℚ} (h : AtHead c)
    (hpol : c.policy ≠ .s3fifo) : AtHead (getManyOne ign (c, vs) q).1 := by
  have hfetch : AtHead (fetchValidNode c q.1 ign true q.2).1 := h.fetchValidNode hpol
  unfold getManyOne
  cases hfound : fetchValidNode c q.1 ign true q.2 with
  | mk c' found =>
    rw [hfound] at hfetch
    cases found with
    | none => exact hfetch
    | some i =>
      obtain rfl := fetchValidNode_found hfound
      exact (h.moveToTail hpol).congr rfl rfl

end PerformanceHelpers.PowerCache
