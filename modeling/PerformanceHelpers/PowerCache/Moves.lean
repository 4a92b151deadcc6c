import PerformanceHelpers.PowerCache.Representation

/- The calls of a `PowerCache` as moves of nodes: out of the cache, into Ghost, into
   Main, or in. Each keeps the representation, and says where the node went. -/
namespace PerformanceHelpers.PowerCache
open Function (update_of_ne update update_self)

variable {K V : Type} [DecidableEq K] {c c' : Cache K V} {xs : Queue → List ℕ} {l r : List ℕ}
  {q : Queue} {i : ℕ} {k : K}

omit [DecidableEq K] in
/-- What is constructed is `initial`, with limits that are not negative. -/
theorem new_eq_initial {o : Options K V} (h : new o = .ok c) : ∃ maxEntries inflight maxWeight pool,
    c = initial o maxEntries inflight maxWeight pool ∧ (∀ n ∈ maxEntries, 0 ≤ n) ∧
      ∀ w ∈ maxWeight, 0 ≤ w := by
  unfold new at h
  obtain ⟨maxEntries, hentries, h⟩ := bind_eq_ok.mp h
  obtain ⟨inflight, -, h⟩ := bind_eq_ok.mp h
  obtain ⟨maxWeight, hweight, h⟩ := bind_eq_ok.mp h
  obtain ⟨pool, -, h⟩ := bind_eq_ok.mp h
  split at h
  · cases h
  · split at h
    · cases h
    · exact ⟨maxEntries, inflight, maxWeight, pool, (Except.ok.inj h).symm,
        (optionalLimit_spec hentries).2, (optionalLimit_spec hweight).2⟩

omit [DecidableEq K] in
theorem Rep.new {o : Options K V} (h : new o = .ok c) : Rep c fun _ => [] := by
  obtain ⟨maxEntries, inflight, maxWeight, pool, rfl, -, -⟩ := new_eq_initial h
  have hnodes : (initial o maxEntries inflight maxWeight pool : Cache K V).toHeap.nodes
      (fun _ => []) [] = List.range (initial o maxEntries inflight maxWeight pool :
        Cache K V).nextNode := by
    simp [Heap.nodes, initial]
  refine ⟨⟨⟨⟨fun q => ?_, by simp⟩, ?_, ?_, fun q => ?_, by simp, by simp, rfl, rfl, ?_, rfl⟩,
    rfl, by simp⟩, rfl⟩
  · cases q <;> exact Linked.nil _
  · rw [hnodes]
    exact List.nodup_range
  · rw [hnodes]
    exact fun i hi => List.mem_range.mp hi
  · cases q <;> exact Indexes.nil _
  · intro i hi
    cases hi

/-- The key of a node that was taken out is in no index. -/
theorem Shape.fresh {H H' : Heap K} {key : ℕ → Option K} {held : List ℕ}
    (h : Shape H key xs held) (hi : i ∈ xs q) (hd : Detached H H' key q i) (hk : key i = some k)
    (q' : Queue) : (H'.index q').get k = none := by
  rw [hd.index]
  by_cases hq : q' = q
  · subst hq
    simp [deleteKey, hk, KeyMap.delete]
  · rw [update_of_ne hq]
    exact h.get_none hi hk hq

theorem Layout.drop (h : Layout c xs) (hxs : xs q = l ++ i :: r)
    (hd : Detached c.toHeap c'.toHeap c.key q i) (hf : c'.toFields = c.toFields)
    (hw : c'.currentWeight = c.currentWeight - c.weight i) :
    Layout (freeNode c' i) (update xs q (l ++ r)) := by
  have hshape := h.shape.detached hxs hd
  have hkey : c'.key = c.key := congrArg Fields.key hf
  have hweight : c'.weight = c.weight := congrArg Fields.weight hf
  rw [← hkey] at hshape
  have hne : ∀ q', ∀ j ∈ update xs q (l ++ r) q', (freeNode c' i).weight j = c.weight j := by
    intro q' j hj
    have hji : j ≠ i := fun heq => hshape.held_notMem List.mem_cons_self q' (heq ▸ hj)
    rw [← hweight]
    exact update_of_ne hji _ _
  refine ⟨hshape.freeNode, ?_, fun j hj => ?_⟩
  · rw [weightOf_congr hne]
    show c'.currentWeight = _
    by_cases hq : q = .ghost
    · subst hq
      rw [hw, h.weight, h.ghostWeight i (by simp [hxs]), weightOf_ghost, sub_zero]
    · rw [hw, h.weight, weightOf_erase hxs hq]
  · rw [hne .ghost j hj]
    exact h.ghostWeight j (mem_update_erase hxs hj)

theorem Layout.demote (h : Layout c xs) (hxs : xs q = l ++ i :: r) (hq : q ≠ .ghost)
    (hd : Detached c.toHeap c'.toHeap c.key q i) (hf : c'.toFields = c.toFields)
    (hw : c'.currentWeight = c.currentWeight - c.weight i) (hp : c'.links.prev i = none) :
    Layout (appendGhost c' i)
      (update (update xs q (l ++ r)) .ghost (xs .ghost ++ [i])) := by
  have hi : i ∈ xs q := by simp [hxs]
  have hshape := h.shape.detached hxs hd
  obtain ⟨k, hk⟩ := (h.shape.index q).keyed i hi
  have hkey : c'.key = c.key := congrArg Fields.key hf
  have hweight : c'.weight = c.weight := congrArg Fields.weight hf
  rw [← hkey] at hshape hk
  have hghost : update xs q (l ++ r) .ghost = xs .ghost :=
    update_of_ne (Ne.symm hq) _ _
  have hshape' := hshape.attached attached_appendGhost hp hk
    fun q' => h.shape.fresh hi hd (hkey ▸ hk) q'
  rw [hghost] at hshape'
  have hne : ∀ q', ∀ j ∈ update xs q (l ++ r) q',
      (appendGhost c' i).weight j = c.weight j := by
    intro q' j hj
    have hji : j ≠ i := fun heq => hshape.held_notMem List.mem_cons_self q' (heq ▸ hj)
    rw [← hweight]
    exact update_of_ne hji _ _
  refine ⟨hshape', ?_, fun j hj => ?_⟩
  · rw [weightOf_ghost, weightOf_congr hne, weightOf_erase hxs hq, ← h.weight, ← hw]
    rfl
  · rw [update_self, List.mem_append, List.mem_singleton] at hj
    rcases hj with hj | rfl
    · rw [hne .ghost j (by rwa [hghost])]
      exact h.ghostWeight j hj
    · exact update_self _ _ _

theorem Shape.promote (h : Shape c.toHeap c.key xs []) (hxs : xs q = l ++ i :: r) (hq : q ≠ .main)
    (hd : Detached c.toHeap c'.toHeap c.key q i) (hkey : c'.key = c.key) :
    Shape (appendMain { c' with
        queue := update c'.queue i .main
        links := clearLinks c'.links i } i).toHeap c.key
      (update (update xs q (l ++ r)) .main (xs .main ++ [i])) [] := by
  have hi : i ∈ xs q := by simp [hxs]
  obtain ⟨k, hk⟩ := (h.index q).keyed i hi
  have hreset := (h.detached hxs hd).reset .main (c.key i)
  rw [Function.update_eq_self, ← hkey] at hreset
  have hmain : update xs q (l ++ r) .main = xs .main :=
    update_of_ne (Ne.symm hq) _ _
  rw [← hkey] at hk ⊢
  have hattached := hreset.attached
    (attached_appendMain (c := { c' with
      queue := update c'.queue i .main
      links := clearLinks c'.links i }) (update_self _ _ _))
    (update_self _ _ _) hk fun q' => h.fresh hi hd (hkey ▸ hk) q'
  rwa [hmain] at hattached

omit [DecidableEq K] in
/-- The nodes of a queue change places. -/
theorem Shape.reordered {H H' : Heap K} {key : ℕ → Option K} {held ys : List ℕ}
    (h : Shape H key xs held) (hsame : Kept H H') (hys : ys.Perm (xs q))
    (hchains : Chains H'.links H'.ends (update xs q ys)) :
    Shape H' key (update xs q ys) held := by
  have hmem : ∀ q' j, j ∈ update xs q ys q' ↔ j ∈ xs q' := by
    intro q' j
    by_cases hq : q' = q
    · subst hq
      rw [update_self, hys.mem_iff]
    · rw [update_of_ne hq]
  have hlength : ∀ q', (update xs q ys q').length = (xs q').length := by
    intro q'
    by_cases hq : q' = q
    · subst hq
      rw [update_self, hys.length_eq]
    · rw [update_of_ne hq]
  have hnodes : (H'.nodes (update xs q ys) held).Perm (H.nodes xs held) := by
    refine List.perm_iff_count.mpr fun a => ?_
    have hcount := List.perm_iff_count.mp hys a
    cases q <;> simp [Heap.nodes, hsame.pool, update, List.count_append, hcount]
  refine ⟨hchains, hnodes.nodup_iff.mpr h.nodup, fun j hj => ?_, fun q' => ?_,
    fun q₁ q₂ j₁ j₂ h₁ h₂ hj => ?_, fun q' j hj => ?_, ?_, ?_, fun j hj => ?_, ?_⟩
  · rw [hsame.nextNode]
    exact h.bound j (hnodes.mem_iff.mp hj)
  · rw [hsame.index]
    by_cases hq : q' = q
    · subst hq
      rw [update_self]
      exact (h.index q').perm hys.symm
    · rw [update_of_ne hq]
      exact h.index q'
  · exact h.keys q₁ q₂ j₁ j₂ ((hmem q₁ j₁).mp h₁) ((hmem q₂ j₂).mp h₂) hj
  · rw [hsame.queue]
    exact h.queue q' j ((hmem q' j).mp hj)
  · rw [hsame.smallSize, hlength, h.smallSize]
  · rw [hsame.ghostSize, hlength, h.ghostSize]
  · rw [hsame.cursor] at hj
    exact (hmem .main j).mpr (h.cursor j hj)
  · rw [hsame.cursorValid, hsame.cursor]
    exact h.cursorValid

omit [DecidableEq K] in
/-- The nodes of Main change places, or only the policies' marks do. -/
theorem Layout.reordered {ys : List ℕ} (h : Layout c xs) (hfields : c'.toFields = c.toFields)
    (hweight : c'.currentWeight = c.currentWeight) (hsame : Kept c.toHeap c'.toHeap)
    (hys : ys.Perm (xs .main))
    (hchains : Chains c'.links c'.toHeap.ends (update xs .main ys)) :
    Layout c' (update xs .main ys) := by
  refine ⟨?_, ?_, ?_⟩
  · rw [hfields]
    exact h.shape.reordered hsame hys hchains
  · rw [hweight, hfields, weightOf_reorder hys]
    exact h.weight
  · rw [hfields]
    exact h.ghostWeight

/-- A node that leaves Main for another place in it. -/
theorem kept_remove {c : Cache K V} (hq : c.queue i = .main) : Kept c.toHeap (remove c i).toHeap := by
  rw [remove_main hq]
  exact
    { index := by funext q; cases q <;> rfl
      queue := rfl
      pool := rfl
      nextNode := rfl
      smallSize := rfl
      ghostSize := rfl
      cursor := rfl
      cursorValid := rfl }

theorem kept_appendList : Kept c.toHeap (appendList c i).toHeap where
  index := by funext q; cases q <;> rfl
  queue := rfl
  pool := rfl
  nextNode := rfl
  smallSize := rfl
  ghostSize := rfl
  cursor := rfl
  cursorValid := rfl

/-- Behind the tail of a list it has left. -/
theorem Shape.chains_removed {held : List ℕ} (h : Shape c.toHeap c.key xs held)
    (hxs : xs .main = l ++ i :: r) :
    Chains (remove c i).links (remove c i).toHeap.ends (update xs .main (l ++ r)) ∧
      (∀ q, i ∉ update xs .main (l ++ r) q) ∧ (remove c i).links.prev i = none := by
  have hi : i ∈ xs .main := by simp [hxs]
  have hi' : ∀ q, i ∉ update xs .main (l ++ r) q := by
    intro q hmem
    obtain rfl := h.chains.apart q .main i (mem_update_erase hxs hmem) hi
    rw [update_self] at hmem
    exact (List.nodup_middle.mp (hxs ▸ (h.chains.linked .main).nodup)).notMem hmem
  have hchains := (h.chains.detach hxs).clearLinks hi'
  have hends : (remove c i).toHeap.ends = update c.toHeap.ends .main
      (PerformanceHelpers.detach c.links c.main i).2 := by
    rw [remove_main (h.queue .main i hi)]
    funext q
    cases q <;> rfl
  refine ⟨?_, hi', ?_⟩
  · rw [hends, remove_main (h.queue .main i hi)]
    exact hchains
  · rw [remove_main (h.queue .main i hi)]
    exact update_self _ _ _

theorem perm_behind (l : List ℕ) (i : ℕ) (r : List ℕ) : (l ++ r ++ [i]).Perm (l ++ i :: r) := by
  rw [List.append_assoc]
  exact (List.perm_append_singleton i r).append_left l

def PastWindow (c : Cache K V) (i : ℕ) : Prop :=
  (c.windowSize.all (fun n => decide (0 < n)) && !c.inWindow i) = false

instance (c : Cache K V) (i : ℕ) : Decidable (PastWindow c i) :=
  inferInstanceAs (Decidable (_ = _))

omit [DecidableEq K] in
theorem PastWindow.of_none (h : c.windowSize = some 0) : PastWindow c i := by
  simp [PastWindow, h]

theorem moveToTail_lru (hpol : c.policy = .lru) (hwindow : PastWindow c i) :
    moveToTail c i = if c.main.tail = some i then c else appendList (remove c i) i := by
  have hpol' : (remove c i).policy = .lru := by simp [hpol]
  have hwindow' : (c.windowSize.all (fun n => decide (0 < n)) && !c.inWindow i) = false := hwindow
  simp only [moveToTail, hpol, hwindow', append, hpol', Bool.false_eq_true, if_false]

theorem Shape.moveToTail_lru (h : Shape c.toHeap c.key xs []) (hpol : c.policy = .lru)
    (hwindow : PastWindow c i) (hxs : xs .main = l ++ i :: r) :
    Shape (moveToTail c i).toHeap c.key (update xs .main (l ++ r ++ [i])) [] := by
  have hlinked : Linked c.links c.main (xs .main) := h.chains.linked .main
  have hi : i ∈ xs .main := by simp [hxs]
  rw [PowerCache.moveToTail_lru hpol hwindow]
  by_cases htail : c.main.tail = some i
  · -- it is there already
    have hr : r = [] := by
      have hn := (hlinked.next_none_iff hi).mpr htail
      rwa [(hlinked.links l i r hxs).2, List.head?_eq_none_iff] at hn
    have hsame : update xs .main (l ++ r ++ [i]) = xs := by
      rw [Function.update_eq_self_iff, hr, List.append_nil, hxs, hr]
    rw [hsame, if_pos htail]
    exact h
  rw [if_neg htail]
  obtain ⟨hchains, hi', hp⟩ := h.chains_removed hxs
  have hattached := hchains.attach hi' hp Queue.main
  rw [Function.update_idem, update_self] at hattached
  have hends : (appendList (remove c i) i).toHeap.ends =
      update (remove c i).toHeap.ends .main
        (attach (remove c i).links (remove c i).main i).2 := by
    funext q
    cases q <;> rfl
  refine h.reordered ((kept_remove (h.queue .main i hi)).trans kept_appendList)
    (hxs ▸ perm_behind l i r) ?_
  rw [hends]
  exact hattached

theorem moveToTail_lru_candidate (h : Shape c.toHeap c.key xs []) (hpol : c.policy = .lru)
    (hcand : c.evictionCandidate = (xs .main).head?) (hwindow : PastWindow c i)
    (hxs : xs .main = l ++ i :: r) :
    (moveToTail c i).evictionCandidate = (l ++ r ++ [i]).head? := by
  have hlinked : Linked c.links c.main (xs .main) := h.chains.linked .main
  have hi : i ∈ xs .main := by simp [hxs]
  rw [moveToTail_lru hpol hwindow]
  by_cases htail : c.main.tail = some i
  · have hn := (hlinked.next_none_iff hi).mpr htail
    rw [(hlinked.links l i r hxs).2, List.head?_eq_none_iff] at hn
    rw [if_pos htail, hcand, hxs, hn, List.append_nil]
  · have hdet := (hxs ▸ hlinked : Linked c.links c.main (l ++ i :: r)).detach
    rw [if_neg htail, remove_main (h.queue .main i hi)]
    simp only [appendList, hdet.tail_none_iff, hdet.head_eq, (hlinked.links l i r hxs).1,
      hcand, hxs]
    cases l <;> cases r <;> simp

/-! ## A new node -/

def entryQueue : Policy → Queue
  | .s3fifo => .small
  | .lru | .slru | .sieve => .main

theorem entryQueue_ne (p : Policy) : entryQueue p ≠ .ghost := by cases p <;> simp [entryQueue]

section
omit [DecidableEq K]

@[simp] theorem takeNode_toConfig : (takeNode c).1.toConfig = c.toConfig := by
  cases hp : c.pool <;> simp only [takeNode, hp]

@[simp] theorem takeNode_toFields : (takeNode c).1.toFields = c.toFields := by
  cases hp : c.pool <;> simp only [takeNode, hp]

@[simp] theorem takeNode_currentWeight : (takeNode c).1.currentWeight = c.currentWeight := by
  cases hp : c.pool <;> simp only [takeNode, hp]

@[simp] theorem takeNode_cleanupCursor : (takeNode c).1.cleanupCursor = c.cleanupCursor := by
  cases hp : c.pool <;> simp only [takeNode, hp]

theorem takeNode_evictionCandidate : (takeNode c).1.evictionCandidate = c.evictionCandidate := by
  cases hp : c.pool <;> simp only [takeNode, hp]

theorem takeNode_index : (takeNode c).1.toHeap.index = c.toHeap.index := by
  funext q
  cases hp : c.pool <;> cases q <;> simp only [takeNode, hp] <;> rfl

end

/-- What the fields hold once `i` is the node of a new entry. -/
def Fields.put (f : Fields K V) (i : ℕ) (k : K) (v : V) (w e : ℚ) : Fields K V where
  key := Function.update f.key i (some k)
  value := Function.update f.value i (some v)
  weight := Function.update f.weight i w
  expiresAt := Function.update f.expiresAt i e

variable {v : V} {w e : ℚ}

omit [DecidableEq K] in
theorem allocNode_policy : (allocNode c k v w e).1.policy = c.policy :=
  congrArg Config.policy (takeNode_toConfig (c := c))

/-- A new node outside Small is in the map before it is in the list. -/
theorem insertNode_list (hpol : c.policy ≠ .s3fifo) : insertNode c k v w e =
    let c' := (allocNode c k v w e).1
    let c' := append { c' with map := c'.map.set k (takeNode c).2 } (takeNode c).2
    { c' with currentWeight := c'.currentWeight + w } := by
  have hpol' : (allocNode c k v w e).1.policy ≠ .s3fifo := fun hp => hpol (allocNode_policy.symm.trans hp)
  simp only [insertNode, hpol', if_false]
  rfl

theorem insertNode_s3fifo (hpol : c.policy = .s3fifo) : insertNode c k v w e =
    let c' := appendSmall (allocNode c k v w e).1 (takeNode c).2
    { c' with currentWeight := c'.currentWeight + w } := by
  have hpol' : (allocNode c k v w e).1.policy = .s3fifo := allocNode_policy.trans hpol
  simp only [insertNode, append, hpol', if_true]
  rfl

/-- What an append to the one list may change. -/
theorem append_list (hpol : c.policy ≠ .s3fifo) : ∃ links main candidate probationEnd hand,
    append c i = { c with links, main, evictionCandidate := candidate, probationEnd
                          sieveHand := hand } := by
  have hprobation : ∃ links main candidate probationEnd hand, insertIntoProbation c i =
      { c with links, main, evictionCandidate := candidate, probationEnd, sieveHand := hand } := by
    unfold insertIntoProbation
    split
    · exact ⟨_, _, _, _, _, rfl⟩
    · split
      · exact ⟨_, _, _, _, _, rfl⟩
      · split <;> exact ⟨_, _, _, _, _, rfl⟩
  cases hp : c.policy with
  | s3fifo => exact absurd hp hpol
  | lru | sieve =>
    simp only [append, hp]
    exact ⟨_, _, _, _, _, rfl⟩
  | slru =>
    simp only [append, hp]
    split
    · exact ⟨_, _, _, _, _, rfl⟩
    · exact hprobation

/-- What a new node changes beside its own fields, its place and the map. -/
theorem insertNode_frame : (insertNode c k v w e).toConfig = c.toConfig ∧
    (insertNode c k v w e).toFields = c.toFields.put (takeNode c).2 k v w e ∧
    (insertNode c k v w e).currentWeight = c.currentWeight + w ∧
    Entered (allocNode c k v w e).1.toHeap (insertNode c k v w e).toHeap
      (allocNode c k v w e).1.key (entryQueue c.policy) (takeNode c).2 := by
  have hkey : (allocNode c k v w e).1.key (takeNode c).2 = some k := update_self _ _ _
  have hqueue : (allocNode c k v w e).1.queue (takeNode c).2 = .main := update_self _ _ _
  have hput : (allocNode c k v w e).1.toFields = c.toFields.put (takeNode c).2 k v w e := by
    rw [← takeNode_toFields (c := c)]
    rfl
  have hconfig : (allocNode c k v w e).1.toConfig = c.toConfig := takeNode_toConfig
  have hweight : (allocNode c k v w e).1.currentWeight = c.currentWeight := takeNode_currentWeight
  by_cases hpol : c.policy = .s3fifo
  · rw [insertNode_s3fifo hpol, hpol]
    refine ⟨hconfig, hput, congrArg (· + w) hweight, ?_⟩
    exact (attached_appendSmall (c := (allocNode c k v w e).1)).toEntered
  · have hmain : entryQueue c.policy = .main := by
      cases hp : c.policy with
      | s3fifo => exact absurd hp hpol
      | lru | slru | sieve => rfl
    rw [insertNode_list hpol, hmain]
    obtain ⟨links, main, candidate, probationEnd, hand, happend⟩ :=
      append_list (c := { (allocNode c k v w e).1 with
        map := (allocNode c k v w e).1.map.set k (takeNode c).2 }) (i := (takeNode c).2)
        (fun hp => hpol ((congrArg Config.policy hconfig).symm.trans hp))
    simp only [happend]
    refine ⟨hconfig, hput, congrArg (· + w) hweight, ?_⟩
    exact
      { index := by rw [hkey]; funext q; cases q <;> rfl
        queue := (Function.update_eq_self_iff.mpr hqueue.symm).symm
        pool := rfl
        nextNode := rfl
        smallSize := (add_zero _).symm
        ghostSize := (add_zero _).symm
        cursor := rfl
        cursorValid := rfl }

theorem insertNode_cleanupCursor : (insertNode c k v w e).cleanupCursor = c.cleanupCursor :=
  insertNode_frame.2.2.2.cursor.trans takeNode_cleanupCursor

omit [DecidableEq K] in
theorem allocNode_index_get (hfresh : ∀ q, (c.toHeap.index q).get k = none) (q : Queue) :
    ((allocNode c k v w e).1.toHeap.index q).get k = none := by
  have hsame : (allocNode c k v w e).1.toHeap.index = (takeNode c).1.toHeap.index := by
    funext q
    cases q <;> rfl
  rw [hsame, takeNode_index]
  exact hfresh q

protected theorem Layout.insertNode {ys : List ℕ} (h : Layout c xs)
    (hfresh : ∀ q, (c.toHeap.index q).get k = none)
    (hys : ys.Perm ((takeNode c).2 :: xs (entryQueue c.policy)))
    (hchains : Chains (insertNode c k v w e).links (insertNode c k v w e).toHeap.ends
      (update xs (entryQueue c.policy) ys)) :
    Layout (insertNode c k v w e) (update xs (entryQueue c.policy) ys) := by
  obtain ⟨-, hfields, hcurrent, hentered⟩ := insertNode_frame (c := c) (k := k) (v := v) (w := w)
    (e := e)
  have hi : ∀ q, (takeNode c).2 ∉ xs q := h.shape.takeNode.held_notMem List.mem_cons_self
  have halloc := h.shape.allocNode (k := k) (v := v) (w := w) (e := e)
  have hshape := halloc.entered hentered hys hchains (update_self _ _ _)
    (allocNode_index_get hfresh)
  have hkey : (insertNode c k v w e).key = (allocNode c k v w e).1.key := by
    rw [hfields, ← takeNode_toFields (c := c)]
    rfl
  have hweight : (insertNode c k v w e).weight =
      update c.weight (takeNode c).2 w := by
    rw [hfields]
    rfl
  have hold : ∀ q, ∀ j ∈ xs q, update c.weight (takeNode c).2 w j = c.weight j :=
    fun q j hj => update_of_ne (by rintro rfl; exact hi q hj) _ _
  refine ⟨hkey ▸ hshape, ?_, fun j hj => ?_⟩
  · rw [hweight, weightOf_perm (entryQueue_ne _) hys, update_self, weightOf_congr hold,
      ← h.weight]
    exact hcurrent
  · rw [update_of_ne (entryQueue_ne _).symm] at hj
    rw [hweight, hold .ghost j hj]
    exact h.ghostWeight j hj

theorem attached_insertNode (hpol : c.policy ≠ .slru) :
    Attached (allocNode c k v w e).1.toHeap (insertNode c k v w e).toHeap
      (allocNode c k v w e).1.key (entryQueue c.policy) (takeNode c).2 := by
  refine ⟨insertNode_frame.2.2.2, ?_, ?_⟩
  all_goals
    have hpol' : (allocNode c k v w e).1.policy = c.policy := allocNode_policy
    cases hp : c.policy with
    | slru => exact absurd hp hpol
    | s3fifo =>
      rw [insertNode_s3fifo hp]
      first | rfl | (funext q; cases q <;> rfl)
    | lru | sieve =>
      rw [hp] at hpol'
      rw [insertNode_list (by simp [hp])]
      simp only [append, hpol']
      first | rfl | (funext q; cases q <;> rfl)

protected theorem Rep.insertNode (h : Rep c xs) (hfresh : ∀ q, (c.toHeap.index q).get k = none)
    (hpol : c.policy ≠ .slru) :
    Rep (insertNode c k v w e) (update xs (entryQueue c.policy)
      (xs (entryQueue c.policy) ++ [(takeNode c).2])) := by
  have hattached := attached_insertNode (k := k) (v := v) (w := w) (e := e) hpol
  have halloc := h.shape.allocNode (k := k) (v := v) (w := w) (e := e)
  have hi : ∀ q, (takeNode c).2 ∉ xs q := h.shape.takeNode.held_notMem List.mem_cons_self
  refine ⟨h.toLayout.insertNode hfresh (List.perm_append_singleton _ _) ?_, ?_⟩
  · rw [hattached.links, hattached.ends]
    exact halloc.chains.attach hi (update_self _ _ _) _
  · have hcand : (allocNode c k v w e).1.evictionCandidate = c.evictionCandidate :=
      takeNode_evictionCandidate
    have htail : (allocNode c k v w e).1.main.tail = none ↔ xs .main = [] :=
      (halloc.chains.linked .main).tail_none_iff
    have hpol' : (allocNode c k v w e).1.policy = c.policy := allocNode_policy
    cases hp : c.policy with
    | slru => exact absurd hp hpol
    | s3fifo =>
      rw [insertNode_s3fifo hp]
      exact hcand.trans h.candidate
    | lru | sieve =>
      rw [hp] at hpol'
      rw [insertNode_list (by simp [hp])]
      simp only [append, hpol', appendList, htail, hcand, h.candidate, entryQueue,
        update_self]
      cases xs .main <;> simp

/-! ## Without a filter -/

theorem insertNew_plain {n : ℕ} (h : c.sketch = none) :
    insertNew c k v w e n = (insertNode c k v w e, true) := by
  rw [insertNew, h]

omit [DecidableEq K] in
theorem countKey_plain (h : c.sketch = none) : countKey c k = c := by simp [countKey, h]

theorem lookup_list (hpol : c.policy ≠ .s3fifo) : lookup c k = c.map.get k := by
  cases hp : c.policy with
  | s3fifo => exact absurd hp hpol
  | lru | slru | sieve => simp only [lookup, hp]

omit [DecidableEq K] in
theorem countWeightError_toConfig {weight : Option Weight} :
    (countWeightError c v weight).toConfig = c.toConfig := by
  unfold countWeightError
  split <;> rfl

theorem store_list {weight : Option Weight} (hpol : c.policy ≠ .s3fifo)
    (hsketch : c.sketch = none) : store c k v e weight =
      if oversized c (computeWeight c.weightFn v weight) then
        (setManyOne e weight c (k, v), false)
      else (evictIfNeeded (setManyOne e weight c (k, v)), true) := by
  have hcount : (countWeightError c v weight).toConfig = c.toConfig := countWeightError_toConfig
  have hover : oversized (countWeightError c v weight) (computeWeight c.weightFn v weight) =
      oversized c (computeWeight c.weightFn v weight) := by
    simp only [oversized, hcount]
  have hlookup : lookup (countWeightError c v weight) k = (countWeightError c v weight).map.get k :=
    lookup_list (by rw [hcount]; exact hpol)
  have hsketch' : (countWeightError c v weight).sketch = none := by rw [hcount, hsketch]
  simp only [store, setManyOne, hover, hlookup, insertNew_plain hsketch']
  split
  · rfl
  · cases (countWeightError c v weight).map.get k <;> rfl

/-! ## Nodes that leave -/

/-- `_unlinkNode` takes a node out of its queue, if it may. -/
protected theorem Detached.unlinkNode {held : List ℕ} (h : Shape c.toHeap c.key xs held) (hi : i ∈ xs q)
    (hd : Detachable c i) (hpol : q ≠ .main → c.policy = .s3fifo) :
    Detached c.toHeap (unlinkNode c i false).toHeap c.key q i := by
  by_cases hq : q = .main
  · subst hq
    exact Detached.of_main h hi
  · exact Detached.of_side h hi hq hd (hpol hq)

theorem unlinkNode_candidate {adv : Bool} : (unlinkNode c i adv).evictionCandidate =
    if c.links.prev i = none then (detach c.links c.main i).2.head
    else if adv then c.links.next i else c.evictionCandidate := by
  cases hp : c.policy <;> cases hq : c.queue i <;>
    simp only [unlinkNode, remove, dropRefs, hp, hq] <;> rfl

/-- The candidate stays the head of Main: a node taken out after it leaves it alone. -/
theorem Rep.unlinked_candidate {adv : Bool} (h : Rep c xs) (hxs : xs q = l ++ i :: r)
    (hd : Detachable c i) (hadv : adv = true → q = .main ∧ l = []) :
    (unlinkNode c i adv).evictionCandidate =
      (update xs q (l ++ r) .main).head? := by
  rw [unlinkNode_candidate]
  by_cases hq : q = .main
  · subst hq
    have hlinked : Linked c.links c.main (l ++ i :: r) := hxs ▸ h.shape.chains.linked .main
    rw [(hlinked.links l i r rfl).1, hlinked.detach.head_eq, update_self, h.candidate, hxs]
    cases l with
    | nil => simp
    | cons j l =>
      have hadv' : adv = false := by
        cases adv
        · rfl
        · exact absurd (hadv rfl).2 (by simp)
      simp [hadv']
  · have hadv' : adv = false := by
      cases adv
      · rfl
      · exact absurd (hadv rfl).1 hq
    have hqueue : c.queue i = q := h.shape.queue q i (by simp [hxs])
    obtain ⟨hends, hhead⟩ := detach_other_ends hd (hqueue ▸ hq) h.shape
    have hmain : c.main.head = (xs .main).head? := (h.shape.chains.linked .main).head_eq
    rw [hends, update_of_ne (Ne.symm hq), hadv', h.candidate]
    by_cases hp : c.links.prev i = none
    · rw [if_pos hp, hmain]
    · rw [if_neg hp]
      rfl

theorem Rep.unlinked (cs : Counters) (cbs : List (Callback K V)) (h : Rep c xs)
    (hxs : xs q = l ++ i :: r) (hd : Detachable c i) (hpol : q ≠ .main → c.policy = .s3fifo) :
    Rep (freeNode { unlinkNode c i false with counters := cs, log := cbs } i)
      (update xs q (l ++ r)) :=
  ⟨h.drop hxs (Detached.unlinkNode h.shape (by simp [hxs]) hd hpol) unlinkNode_toFields
    unlinkNode_currentWeight, h.unlinked_candidate hxs hd (by simp)⟩

theorem Layout.dropNode (reason : String) {adv : Bool} (h : Layout c xs)
    (hxs : xs .main = l ++ i :: r) :
    Layout (dropNode (unlinkNode (abortInflight c (c.key i)) i adv) i reason)
      (update xs .main (l ++ r)) := by
  have hd : Detached (abortInflight c (c.key i)).toHeap
      (unlinkNode (abortInflight c (c.key i)) i adv).toHeap
      (abortInflight c (c.key i)).key .main i := by
    apply Detached.of_main
    · simpa using h.shape
    · simp [hxs]
  simp only [abortInflight_toHeap, abortInflight_toFields] at hd
  refine h.drop hxs hd ?_ ?_
  · exact unlinkNode_toFields.trans abortInflight_toFields
  · exact unlinkNode_currentWeight.trans (by simp)

theorem dropNode_candidate {reason : String} {adv : Bool} :
    (dropNode (unlinkNode (abortInflight c (c.key i)) i adv) i reason).evictionCandidate =
      if c.links.prev i = none then (detach c.links c.main i).2.head
      else if adv then c.links.next i else c.evictionCandidate := by
  have hcand : (unlinkNode (abortInflight c (c.key i)) i adv).evictionCandidate = _ :=
    unlinkNode_candidate
  simp only [abortInflight_toHeap] at hcand
  exact hcand

theorem Rep.dropNode (reason : String) {adv : Bool} (h : Rep c xs) (hxs : xs .main = l ++ i :: r)
    (hadv : adv = true → l = []) :
    Rep (dropNode (unlinkNode (abortInflight c (c.key i)) i adv) i reason)
      (update xs .main (l ++ r)) := by
  refine ⟨h.toLayout.dropNode reason hxs, ?_⟩
  have hd : Detachable c i := Or.inl (h.shape.queue .main i (by simp [hxs]))
  have hcand := h.unlinked_candidate hxs hd fun hadv' => ⟨rfl, hadv hadv'⟩
  rw [unlinkNode_candidate] at hcand
  exact dropNode_candidate.trans hcand

protected theorem Rep.evictNode (h : Rep c xs) (hxs : xs .main = i :: r) :
    Rep (evictNode c i) (update xs .main r) :=
  h.dropNode "evicted" (l := []) hxs fun _ => rfl

/-! ## Everything goes -/

omit [DecidableEq K] in
theorem foldl_freeNode_toConfig (nodes : List ℕ) (c : Cache K V) :
    (nodes.foldl freeNode c).toConfig = c.toConfig := by
  induction nodes generalizing c with
  | nil => rfl
  | cons i nodes ih => exact ih (freeNode c i)

omit [DecidableEq K] in
/-- Nodes that are freed go to the pool one by one, while there is room. -/
theorem foldl_freeNode_pool (nodes : List ℕ) (c : Cache K V) :
    (nodes.foldl freeNode c).pool.Sublist (nodes.reverse ++ c.pool) := by
  induction nodes generalizing c with
  | nil => exact List.Sublist.refl _
  | cons i nodes ih =>
    have hpool : (freeNode c i).pool.Sublist (i :: c.pool) := by
      simp only [freeNode]
      split
      · exact List.Sublist.refl _
      · exact List.sublist_cons_self i c.pool
    rw [List.reverse_cons, List.append_assoc, List.singleton_append]
    exact (ih (freeNode c i)).trans (hpool.append_left nodes.reverse)

theorem foldl_abortInflight (keys : List K) (c : Cache K V) :
    (keys.foldl (fun c key => abortInflight c (some key)) c).toConfig = c.toConfig ∧
      (keys.foldl (fun c key => abortInflight c (some key)) c).toFields = c.toFields ∧
      (keys.foldl (fun c key => abortInflight c (some key)) c).toHeap = c.toHeap := by
  induction keys generalizing c with
  | nil => exact ⟨rfl, rfl, rfl⟩
  | cons key keys ih =>
    obtain ⟨hconfig, hfields, hheap⟩ := ih (abortInflight c (some key))
    exact ⟨hconfig.trans abortInflight_toConfig, hfields.trans abortInflight_toFields,
      hheap.trans abortInflight_toHeap⟩

omit [DecidableEq K] in
theorem foldl_freeNode_weights (nodes : List ℕ) (c : Cache K V) (h : ∀ i, 0 ≤ c.weight i) :
    ∀ i, 0 ≤ (nodes.foldl freeNode c).weight i := by
  induction nodes generalizing c with
  | nil => exact h
  | cons j nodes ih =>
    refine ih (freeNode c j) fun i => ?_
    by_cases hi : i = j
    · subst hi
      exact (update_self i 0 c.weight).ge
    · exact (h i).trans_eq (update_of_ne hi 0 c.weight).symm

omit [DecidableEq K] in
theorem foldl_freeNode_nextNode (nodes : List ℕ) (c : Cache K V) :
    (nodes.foldl freeNode c).nextNode = c.nextNode ∧ (nodes.foldl freeNode c).inWindow = c.inWindow ∧
      (nodes.foldl freeNode c).windowStartMemo = c.windowStartMemo ∧
      (nodes.foldl freeNode c).windowTail = c.windowTail := by
  induction nodes generalizing c with
  | nil => exact ⟨rfl, rfl, rfl, rfl⟩
  | cons i nodes ih => exact ih (freeNode c i)

/-- What `clear` leaves of the options, and of the nodes. -/
theorem clear_frame (h : Layout c xs) : (clear c).toConfig = c.toConfig ∧
    (clear c).pool.Sublist ((xs .main).reverse ++ c.pool) ∧ (clear c).nextNode = c.nextNode ∧
    (clear c).inWindow = c.inWindow ∧ (clear c).windowStartMemo = c.windowStartMemo ∧
    (clear c).windowTail = c.windowTail := by
  obtain ⟨hconfig, -, hheap⟩ := foldl_abortInflight (c.inflight.map Fetch.key) c
  have hlinked : Linked c.links c.main (xs .main) := h.shape.chains.linked .main
  have hwalk : walk c.links.next c.nextNode c.main.head = xs .main :=
    hlinked.walk_next (h.shape.length_le .main)
  have hpool := foldl_freeNode_pool (xs .main)
    ((c.inflight.map Fetch.key).foldl (fun c key => abortInflight c (some key)) c)
  have hrest := foldl_freeNode_nextNode (xs .main)
    ((c.inflight.map Fetch.key).foldl (fun c key => abortInflight c (some key)) c)
  refine ⟨(foldl_freeNode_toConfig _ _).trans hconfig, ?_⟩
  simp only [clear, hheap, hwalk] at hpool hrest ⊢
  exact ⟨hpool, hrest⟩

theorem clear_weights (h : ∀ i, 0 ≤ c.weight i) : ∀ i, 0 ≤ (clear c).weight i := by
  obtain ⟨-, hfields, -⟩ := foldl_abortInflight (c.inflight.map Fetch.key) c
  refine foldl_freeNode_weights _ _ ?_
  rw [hfields]
  exact h

/-- The nodes of Main go to the pool, and the queues are empty. -/
protected theorem Layout.clear (h : Layout c xs) : Layout (clear c) fun _ => [] := by
  obtain ⟨-, hpool, hnext, -⟩ := clear_frame h
  have hnodes : (clear c).toHeap.nodes (fun _ => []) [] = (clear c).pool := by
    simp [Heap.nodes]
  have hold : ((xs .main).reverse ++ c.pool).Nodup := by
    have hnd := h.shape.nodup
    simp only [Heap.nodes, List.append_nil, List.nodup_append] at hnd
    rw [List.nodup_append, List.nodup_reverse]
    refine ⟨hnd.1, hnd.2.1.2.1.2.1, fun i hi j hj => hnd.2.2 i (by simpa using hi) j ?_⟩
    simp [hj]
  refine ⟨⟨⟨fun q => ?_, by simp⟩, ?_, ?_, fun q => ?_, by simp, by simp, rfl, rfl, ?_, rfl⟩,
    rfl, by simp⟩
  · cases q <;> exact Linked.nil _
  · rw [hnodes]
    exact hpool.nodup hold
  · rw [hnodes, hnext]
    intro i hi
    refine h.shape.bound i ?_
    rcases List.mem_append.mp (hpool.subset hi) with hi | hi
    · simp [Heap.nodes, List.mem_reverse.mp hi]
    · simp [Heap.nodes, hi]
  · cases q <;> exact Indexes.nil _
  · intro i hi
    cases hi

/-! ## The victim -/

section
omit [DecidableEq K]

theorem nextVictim_plain (h : c.missCost = none) : nextVictim c = (c, victim c) := by
  rw [nextVictim, h]

protected theorem Rep.victim (h : Rep c xs) : victim c = (xs .main).head? := by
  have hhead : c.main.head = (xs .main).head? := (h.shape.chains.linked .main).head_eq
  rw [victim, h.candidate, hhead]
  cases (xs .main).head? <;> rfl

protected theorem Rep.settleCandidate (h : Rep c xs) : settleCandidate c = c := by
  have hhead : c.main.head = c.evictionCandidate :=
    (h.shape.chains.linked .main).head_eq.trans h.candidate.symm
  rw [settleCandidate, hhead]
  exact ite_self c

protected theorem Rep.realignCandidate (h : Rep c xs) : realignCandidate c = c := by
  have hhead : c.main.head = c.evictionCandidate :=
    (h.shape.chains.linked .main).head_eq.trans h.candidate.symm
  rw [realignCandidate, hhead]
  exact ite_self c

end

end PerformanceHelpers.PowerCache
