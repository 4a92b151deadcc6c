import PerformanceHelpers.PowerCache.Core

/- The representation of a `PowerCache`: the queues are lists of nodes.

   `Shape` says which nodes are in which queue, and that everything that is kept
   beside the queues agrees with them; `Layout` adds the weight, and `Rep` that the
   eviction candidate is the head of Main. A call moves nodes between the queues
   and the pool by the two moves `Entered` and `Detached`, and what these do to a
   `Shape` is proved once for all queues. -/
namespace PerformanceHelpers.PowerCache
open Function (update update_self update_of_ne)

variable {K V : Type}

def Heap.ends (H : Heap K) : Queue → Ends ℕ
  | .main => H.main
  | .small => H.small
  | .ghost => H.ghost

def Heap.index (H : Heap K) : Queue → KeyMap K ℕ
  | .main => H.map
  | .small => H.smallMap
  | .ghost => H.ghostMap

/-- Every node there is: those in the queues, in the pool, and in hand. -/
def Heap.nodes (H : Heap K) (xs : Queue → List ℕ) (held : List ℕ) : List ℕ :=
  xs .main ++ (xs .small ++ (xs .ghost ++ (H.pool ++ held)))

/-- The queues hold the nodes `xs`, and the nodes `held` are in no queue. -/
structure Shape (H : Heap K) (key : ℕ → Option K) (xs : Queue → List ℕ) (held : List ℕ) :
    Prop where
  chains : Chains H.links H.ends xs
  nodup : (H.nodes xs held).Nodup
  bound : ∀ i ∈ H.nodes xs held, i < H.nextNode
  index : ∀ q, Indexes (H.index q) key (xs q)
  keys : ∀ q q' i j, i ∈ xs q → j ∈ xs q' → key i = key j → q = q'
  queue : ∀ q, ∀ i ∈ xs q, H.queue i = q
  smallSize : H.smallSize = (xs .small).length
  ghostSize : H.ghostSize = (xs .ghost).length
  cursor : ∀ i, H.cleanupCursor = some i → i ∈ xs .main
  cursorValid : H.cleanupCursorValid = H.cleanupCursor.isSome

def onlyMain (xs : List ℕ) : Queue → List ℕ
  | .main => xs
  | .small | .ghost => []

@[simp] theorem onlyMain_update (xs ys : List ℕ) :
    update (onlyMain xs) .main ys = onlyMain ys := by
  funext q
  cases q <;> rfl

def weightOf (weight : ℕ → ℚ) (xs : Queue → List ℕ) : ℚ := ((xs .main ++ xs .small).map weight).sum

structure Layout (c : Cache K V) (xs : Queue → List ℕ) : Prop where
  shape : Shape c.toHeap c.key xs []
  weight : c.currentWeight = weightOf c.weight xs
  ghostWeight : ∀ i ∈ xs .ghost, c.weight i = 0

structure Rep (c : Cache K V) (xs : Queue → List ℕ) : Prop extends Layout c xs where
  candidate : c.evictionCandidate = (xs .main).head?

/-! ## The two moves -/

/-- From `H` to `H'` the node `i`, in no queue, gets into `q`; where is left open. -/
structure Entered [DecidableEq K] (H H' : Heap K) (key : ℕ → Option K) (q : Queue) (i : ℕ) :
    Prop where
  index : H'.index = Function.update H.index q (setKey (H.index q) (key i) i)
  queue : H'.queue = Function.update H.queue i q
  pool : H'.pool = H.pool
  nextNode : H'.nextNode = H.nextNode
  smallSize : H'.smallSize = H.smallSize + if q = .small then 1 else 0
  ghostSize : H'.ghostSize = H.ghostSize + if q = .ghost then 1 else 0
  cursor : H'.cleanupCursor = H.cleanupCursor
  cursorValid : H'.cleanupCursorValid = H.cleanupCursorValid

structure Attached [DecidableEq K] (H H' : Heap K) (key : ℕ → Option K) (q : Queue) (i : ℕ) :
    Prop extends Entered H H' key q i where
  links : H'.links = (attach H.links (H.ends q) i).1
  ends : H'.ends = Function.update H.ends q (attach H.links (H.ends q) i).2

/-- From `H` to `H'` nodes only change places. -/
structure Kept (H H' : Heap K) : Prop where
  index : H'.index = H.index
  queue : H'.queue = H.queue
  pool : H'.pool = H.pool
  nextNode : H'.nextNode = H.nextNode
  smallSize : H'.smallSize = H.smallSize
  ghostSize : H'.ghostSize = H.ghostSize
  cursor : H'.cleanupCursor = H.cleanupCursor
  cursorValid : H'.cleanupCursorValid = H.cleanupCursorValid

theorem Kept.trans {H H' H'' : Heap K} (h : Kept H H') (h' : Kept H' H'') : Kept H H'' :=
  ⟨h'.index.trans h.index, h'.queue.trans h.queue, h'.pool.trans h.pool,
    h'.nextNode.trans h.nextNode, h'.smallSize.trans h.smallSize, h'.ghostSize.trans h.ghostSize,
    h'.cursor.trans h.cursor, h'.cursorValid.trans h.cursorValid⟩

/-- From `H` to `H'` the node `i` is taken out of `q`; what becomes of its own links is
left open. -/
structure Detached [DecidableEq K] (H H' : Heap K) (key : ℕ → Option K) (q : Queue) (i : ℕ) :
    Prop where
  links : ∀ j, j ≠ i → H'.links.prev j = (detach H.links (H.ends q) i).1.prev j ∧
    H'.links.next j = (detach H.links (H.ends q) i).1.next j
  ends : H'.ends = Function.update H.ends q (detach H.links (H.ends q) i).2
  index : H'.index = Function.update H.index q (deleteKey (H.index q) (key i))
  queue : ∀ j, j ≠ i → H'.queue j = H.queue j
  pool : H'.pool = H.pool
  nextNode : H'.nextNode = H.nextNode
  smallSize : H'.smallSize = H.smallSize - if q = .small then 1 else 0
  ghostSize : H'.ghostSize = H.ghostSize - if q = .ghost then 1 else 0
  cursor : H'.cleanupCursor =
    if q = .main ∧ H.cleanupCursor = some i then H.links.next i else H.cleanupCursor
  cursorValid : H.cleanupCursorValid = H.cleanupCursor.isSome →
    H'.cleanupCursorValid = H'.cleanupCursor.isSome

section
variable {H H' : Heap K} {key key' : ℕ → Option K} {xs : Queue → List ℕ} {held l r : List ℕ}
  {q : Queue} {i : ℕ} {k : K}

variable {adv : Bool} {ys : List ℕ} {j : ℕ} {w : ℕ → ℚ} {q' : Queue}

theorem Shape.held_notMem (h : Shape H key xs held) (hj : j ∈ held) (q : Queue) :
    j ∉ xs q := by
  have hnd := h.nodup
  simp only [Heap.nodes, List.nodup_append] at hnd
  intro hi
  cases q <;> grind

theorem Shape.length_le (h : Shape H key xs held) (q : Queue) : (xs q).length ≤ H.nextNode := by
  have hsub : xs q ⊆ List.range H.nextNode := by
    intro j hj
    refine List.mem_range.mpr (h.bound j ?_)
    cases q <;> simp [Heap.nodes, hj]
  simpa using List.Nodup.length_le_of_subset (h.chains.linked q).nodup hsub

/-- The moves only reorder the nodes. -/
theorem nodes_perm_enter (H : Heap K) (hys : ys.Perm (i :: xs q)) (held : List ℕ) :
    (H.nodes (update xs q ys) held).Perm (H.nodes xs (i :: held)) := by
  refine List.perm_iff_count.mpr fun a => ?_
  have hcount := List.perm_iff_count.mp hys a
  rw [List.count_cons] at hcount
  cases q <;>
    simp only [Heap.nodes, update, List.count_append, List.count_cons, reduceCtorEq,
      dite_true, dite_false, hcount] <;> omega

theorem nodes_perm_detach (H : Heap K) (hxs : xs q = l ++ i :: r) (held : List ℕ) :
    (H.nodes (update xs q (l ++ r)) (i :: held)).Perm (H.nodes xs held) := by
  refine List.perm_iff_count.mpr fun a => ?_
  cases q <;> simp [Heap.nodes, update, hxs, List.count_append, List.count_cons] <;> omega

/-- Nodes of a queue that changes are old ones or `i`. -/
theorem mem_update_perm (hys : ys.Perm (i :: xs q))
    (hj : j ∈ update xs q ys q') : j ∈ xs q' ∨ q' = q ∧ j = i := by
  by_cases hq : q' = q
  · subst hq
    rw [update_self, hys.mem_iff, List.mem_cons] at hj
    exact hj.symm.imp_right fun hj => ⟨rfl, hj⟩
  · rw [update_of_ne hq] at hj
    exact Or.inl hj

theorem mem_update_erase (hxs : xs q = l ++ i :: r)
    (hj : j ∈ update xs q (l ++ r) q') : j ∈ xs q' := by
  by_cases hq : q' = q
  · subst hq
    rw [update_self, List.mem_append] at hj
    rw [hxs]
    rcases hj with hj | hj <;> simp [hj]
  · rwa [update_of_ne hq] at hj

variable [DecidableEq K]

theorem Shape.entered (h : Shape H key xs (i :: held)) (ha : Entered H H' key q i)
    (hys : ys.Perm (i :: xs q)) (hchains : Chains H'.links H'.ends (update xs q ys))
    (hk : key i = some k) (hfresh : ∀ q, (H.index q).get k = none) :
    Shape H' key (update xs q ys) held := by
  have hi := h.held_notMem List.mem_cons_self
  have hperm := nodes_perm_enter H hys held
  have hnodes : H'.nodes (update xs q ys) held =
      H.nodes (update xs q ys) held := by
    simp only [Heap.nodes, ha.pool]
  have hkey : ∀ q j, j ∈ xs q → key j ≠ some k := fun q j hj => (h.index q).get_none (hfresh q) hj
  have hlength : (ys.length : ℤ) = (xs q).length + 1 := by
    rw [hys.length_eq, List.length_cons]
    rfl
  refine ⟨hchains, ?_, ?_, fun q' => ?_, fun q₁ q₂ j₁ j₂ h₁ h₂ hj => ?_, fun q' j hj => ?_,
    ?_, ?_, fun j hj => ?_, ?_⟩
  · rw [hnodes]
    exact hperm.nodup_iff.mpr h.nodup
  · rw [hnodes, ha.nextNode]
    exact fun j hj => h.bound j (hperm.mem_iff.mp hj)
  · rw [ha.index]
    by_cases hq : q' = q
    · subst hq
      have hset := ((h.index q').set (hfresh q') hk).perm
        ((List.perm_append_singleton i (xs q')).trans hys.symm)
      simpa [setKey, hk] using hset
    · simpa only [update_of_ne hq] using h.index q'
  · -- no old node has the new node's key
    rcases mem_update_perm hys h₁ with m₁ | ⟨e₁, i₁⟩ <;>
      rcases mem_update_perm hys h₂ with m₂ | ⟨e₂, i₂⟩
    · exact h.keys q₁ q₂ j₁ j₂ m₁ m₂ hj
    · exact absurd (hj.trans (i₂ ▸ hk)) (hkey q₁ j₁ m₁)
    · exact absurd (hj.symm.trans (i₁ ▸ hk)) (hkey q₂ j₂ m₂)
    · exact e₁.trans e₂.symm
  · rw [ha.queue]
    rcases mem_update_perm hys hj with hj | ⟨rfl, rfl⟩
    · have hne : j ≠ i := fun heq => hi q' (heq ▸ hj)
      rw [update_of_ne hne]
      exact h.queue q' j hj
    · exact update_self _ _ _
  · rw [ha.smallSize, h.smallSize]
    cases q <;> simp [hlength]
  · rw [ha.ghostSize, h.ghostSize]
    cases q <;> simp [hlength]
  · rw [ha.cursor] at hj
    have hmem := h.cursor j hj
    by_cases hq : q = .main
    · subst hq
      simp [hys.mem_iff, hmem]
    · rwa [update_of_ne (Ne.symm hq)]
  · rw [ha.cursorValid, ha.cursor]
    exact h.cursorValid

theorem Shape.attached (h : Shape H key xs (i :: held)) (ha : Attached H H' key q i)
    (hp : H.links.prev i = none) (hk : key i = some k) (hfresh : ∀ q, (H.index q).get k = none) :
    Shape H' key (update xs q (xs q ++ [i])) held := by
  refine h.entered ha.toEntered (List.perm_append_singleton i (xs q)) ?_ hk hfresh
  rw [ha.links, ha.ends]
  exact h.chains.attach (h.held_notMem List.mem_cons_self) hp q

theorem Shape.detached (h : Shape H key xs held) (hxs : xs q = l ++ i :: r)
    (hd : Detached H H' key q i) : Shape H' key (update xs q (l ++ r)) (i :: held) := by
  have hlinked := h.chains.linked q
  rw [hxs] at hlinked
  have hperm := nodes_perm_detach H hxs held
  have hnodes : H'.nodes (update xs q (l ++ r)) (i :: held) =
      H.nodes (update xs q (l ++ r)) (i :: held) := by
    simp only [Heap.nodes, hd.pool]
  have hi : ∀ q', i ∉ update xs q (l ++ r) q' := by
    intro q' hi
    have hmem := mem_update_erase hxs hi
    obtain rfl : q' = q := h.chains.apart q' q i hmem (by simp [hxs])
    rw [update_self] at hi
    exact (List.nodup_middle.mp hlinked.nodup).notMem hi
  obtain ⟨k, hk⟩ := (h.index q).keyed i (by simp [hxs])
  have hchains : Chains H'.links H'.ends (update xs q (l ++ r)) := by
    have hdet := h.chains.detach hxs
    rw [hd.ends]
    refine ⟨fun q' => (hdet.linked q').congr fun j hj => ?_, hdet.apart⟩
    exact hd.links j fun heq => hi q' (heq ▸ hj)
  refine ⟨hchains, ?_, ?_, fun q' => ?_, fun q₁ q₂ j₁ j₂ h₁ h₂ hj => ?_, fun q' j hj => ?_,
    ?_, ?_, fun j hj => ?_, hd.cursorValid h.cursorValid⟩
  · rw [hnodes]
    exact hperm.nodup_iff.mpr h.nodup
  · rw [hnodes, hd.nextNode]
    exact fun j hj => h.bound j (hperm.mem_iff.mp hj)
  · rw [hd.index]
    by_cases hq : q' = q
    · subst hq
      have hidx := h.index q'
      rw [hxs] at hidx
      simpa [deleteKey, hk] using hidx.delete hlinked.nodup hk
    · simpa only [update_of_ne hq] using h.index q'
  · exact h.keys q₁ q₂ j₁ j₂ (mem_update_erase hxs h₁) (mem_update_erase hxs h₂) hj
  · rw [hd.queue j fun heq => hi q' (heq ▸ hj)]
    exact h.queue q' j (mem_update_erase hxs hj)
  · rw [hd.smallSize, h.smallSize]
    cases q <;> (simp [hxs]; try omega)
  · rw [hd.ghostSize, h.ghostSize]
    cases q <;> (simp [hxs]; try omega)
  · rw [hd.cursor] at hj
    by_cases hq : q = .main
    · subst hq
      rw [update_self]
      by_cases hcur : H.cleanupCursor = some i
      · rw [if_pos ⟨rfl, hcur⟩, (hlinked.links l i r rfl).2] at hj
        exact List.mem_append_right l (List.mem_of_head? hj)
      · rw [if_neg fun hc => hcur hc.2] at hj
        have hmem := h.cursor j hj
        have hne : j ≠ i := fun heq => hcur (heq ▸ hj)
        rw [hxs] at hmem
        simpa [hne] using hmem
    · rw [if_neg fun hc => hq hc.1] at hj
      rw [update_of_ne (Ne.symm hq)]
      exact h.cursor j hj

/-! ## The calls that make them -/

variable {c : Cache K V}

theorem attached_appendSmall : Attached c.toHeap (appendSmall c i).toHeap c.key .small i where
  links := rfl
  ends := by funext q; cases q <;> rfl
  index := by funext q; cases q <;> rfl
  queue := rfl
  pool := rfl
  nextNode := rfl
  smallSize := rfl
  ghostSize := (add_zero _).symm
  cursor := rfl
  cursorValid := rfl

theorem attached_appendGhost : Attached c.toHeap (appendGhost c i).toHeap c.key .ghost i where
  links := rfl
  ends := by funext q; cases q <;> rfl
  index := by funext q; cases q <;> rfl
  queue := rfl
  pool := rfl
  nextNode := rfl
  smallSize := (add_zero _).symm
  ghostSize := rfl
  cursor := rfl
  cursorValid := rfl

theorem attached_appendMain (hq : c.queue i = .main) :
    Attached c.toHeap (appendMain c i).toHeap c.key .main i where
  links := rfl
  ends := by funext q; cases q <;> rfl
  index := by funext q; cases q <;> rfl
  queue := (Function.update_eq_self_iff.mpr hq.symm).symm
  pool := rfl
  nextNode := rfl
  smallSize := (add_zero _).symm
  ghostSize := (add_zero _).symm
  cursor := rfl
  cursorValid := rfl

theorem detached_removeFromSmall : Detached c.toHeap (removeFromSmall c i).toHeap c.key .small i where
  links := fun _ _ => ⟨rfl, rfl⟩
  ends := by funext q; cases q <;> rfl
  index := by funext q; cases q <;> rfl
  queue := fun _ _ => rfl
  pool := rfl
  nextNode := rfl
  smallSize := rfl
  ghostSize := (sub_zero _).symm
  cursor := rfl
  cursorValid := id

theorem detached_removeFromGhost : Detached c.toHeap (removeFromGhost c i).toHeap c.key .ghost i where
  links := fun _ _ => ⟨rfl, rfl⟩
  ends := by funext q; cases q <;> rfl
  index := by funext q; cases q <;> rfl
  queue := fun _ _ => rfl
  pool := rfl
  nextNode := rfl
  smallSize := (sub_zero _).symm
  ghostSize := rfl
  cursor := rfl
  cursorValid := id

/-- `_remove` detaches a node from Main's ends, whatever queue it is in. These are the
nodes this does not harm: those of Main, those with two neighbours, and one that is alone
in its queue while Main is empty. -/
def Detachable (c : Cache K V) (i : ℕ) : Prop :=
  c.queue i = .main ∨ ((c.links.prev i).isSome ∧ (c.links.next i).isSome) ∨
    (c.links.prev i = none ∧ c.links.next i = none ∧ c.main.head = none)

instance (c : Cache K V) (i : ℕ) : Decidable (Detachable c i) :=
  inferInstanceAs (Decidable (_ ∨ _))

omit [DecidableEq K] in
theorem Shape.get_none (h : Shape H key xs held) (hi : i ∈ xs q) (hk : key i = some k)
    (hq : q' ≠ q) : (H.index q').get k = none := by
  rw [Option.eq_none_iff_forall_ne_some]
  intro j hj
  obtain ⟨hmem, hkj⟩ := ((h.index q').get_iff k j).mp hj
  exact hq (h.keys q' q j i hmem hi (hkj.trans hk.symm))

theorem Shape.deleteKey_eq (h : Shape H key xs held) (hi : i ∈ xs q) (hq : q' ≠ q) :
    deleteKey (H.index q') (key i) = H.index q' := by
  obtain ⟨k, hk⟩ := (h.index q).keyed i hi
  rw [hk]
  exact KeyMap.delete_absent (h.get_none hi hk hq)

theorem remove_main (hq : c.queue i = .main) :
    remove c i = { c with
      links := clearLinks (detach c.links c.main i).1 i, main := (detach c.links c.main i).2
      evictionCandidate := if c.links.prev i = none then (detach c.links c.main i).2.head
        else c.evictionCandidate
      probationEnd := if c.probationEnd = some i then c.links.prev i else c.probationEnd
      sieveHand := if c.policy = .sieve ∧ c.sieveHand = some i then
        c.links.next i <|> (detach c.links c.main i).2.head else c.sieveHand
      windowStartMemo := if c.inWindow i then none else c.windowStartMemo
      windowTail := if c.inWindow i then none else c.windowTail } := by
  cases hp : c.policy <;> simp [remove, hp, hq]

theorem clearLinks_of_ne (L : Links ℕ) (h : j ≠ i) :
    (clearLinks L i).prev j = L.prev j ∧ (clearLinks L i).next j = L.next j :=
  ⟨update_of_ne h _ _, update_of_ne h _ _⟩

theorem Detached.of_main (h : Shape c.toHeap c.key xs held) (hi : i ∈ xs .main) :
    Detached c.toHeap (unlinkNode c i adv).toHeap c.key .main i := by
  have hq : c.queue i = .main := h.queue .main i hi
  rw [unlinkNode, remove_main (c := dropRefs c i adv) hq]
  exact
    { links := fun j hj => clearLinks_of_ne _ hj
      ends := by funext q; cases q <;> rfl
      index := by funext q; cases q <;> rfl
      queue := fun _ _ => rfl
      pool := rfl
      nextNode := rfl
      smallSize := (sub_zero _).symm
      ghostSize := (sub_zero _).symm
      cursor := by simp [dropRefs, cursorPast]
      cursorValid := fun _ => rfl }

omit [DecidableEq K] in
/-- A node with two neighbours, or alone while Main is empty, leaves Main's ends as
they are. -/
theorem detach_other_ends (hd : Detachable c i) (hq : c.queue i ≠ .main)
    (h : Shape c.toHeap c.key xs held) : (detach c.links c.main i).2 = c.main ∧
      (c.links.prev i = none → c.main.head = none) := by
  have hmain := h.chains.linked .main
  rcases hd with hd | ⟨hp, hn⟩ | ⟨hp, hn, hhead⟩
  · exact absurd hd hq
  · rw [Option.isSome_iff_ne_none] at hp hn
    refine ⟨?_, fun hp' => absurd hp' hp⟩
    simp [detach, hp, hn]
  · have hnil := hmain.head_none_iff.mp hhead
    have htail : c.main.tail = none := hmain.tail_none_iff.mpr hnil
    refine ⟨?_, fun _ => hhead⟩
    calc (detach c.links c.main i).2
        = ⟨none, none⟩ := by simp [detach, hp, hn]
      _ = c.main := Ends.ext hhead.symm htail.symm

/-- What `_remove` does to the queue a node is in, after Main. -/
def removeFrom (c : Cache K V) (q : Queue) (i : ℕ) : Cache K V :=
  match q with
  | .main => c
  | .small => removeFromSmall c i
  | .ghost => removeFromGhost c i

theorem detached_removeFrom (hq : q ≠ .main) :
    Detached c.toHeap (removeFrom c q i).toHeap c.key q i := by
  cases q with
  | main => exact absurd rfl hq
  | small => exact detached_removeFromSmall
  | ghost => exact detached_removeFromGhost

/-- The first half of `_remove`. -/
def removeFromMain (c : Cache K V) (i : ℕ) : Cache K V :=
  { c with
    links := (detach c.links c.main i).1, main := (detach c.links c.main i).2
    evictionCandidate := if c.links.prev i = none then (detach c.links c.main i).2.head
      else c.evictionCandidate
    probationEnd := if c.probationEnd = some i then c.links.prev i else c.probationEnd }

theorem remove_s3fifo (hpol : c.policy = .s3fifo) : remove c i =
    { removeFrom (removeFromMain c i) (c.queue i) i with
      links := clearLinks (removeFrom (removeFromMain c i) (c.queue i) i).links i
      windowStartMemo := if c.inWindow i then none else c.windowStartMemo
      windowTail := if c.inWindow i then none else c.windowTail } := by
  cases hq : c.queue i <;> simp [remove, removeFrom, removeFromMain, hpol, hq] <;> rfl

theorem Detached.of_side (h : Shape c.toHeap c.key xs held) (hi : i ∈ xs q) (hside : q ≠ .main)
    (hd : Detachable c i) (hpol : c.policy = .s3fifo) :
    Detached c.toHeap (unlinkNode c i false).toHeap c.key q i := by
  have hq : c.queue i = q := h.queue q i hi
  have hlinked := h.chains.linked q
  have hends := (detach_other_ends hd (hq ▸ hside) h).1
  have hcursor : c.cleanupCursor ≠ some i := fun hc =>
    hside (h.chains.apart .main q i (h.cursor i hc) hi).symm
  have hmap : deleteKey (c.toHeap.index .main) (c.key i) = c.toHeap.index .main :=
    h.deleteKey_eq hi (Ne.symm hside)
  have hmain : (removeFromMain (dropRefs c i false) i).toHeap.ends = c.toHeap.ends := by
    funext q'
    cases q' with
    | main => exact hends
    | small | ghost => rfl
  have hindex : (removeFromMain (dropRefs c i false) i).toHeap.index = c.toHeap.index := by
    funext q'
    cases q' with
    | main => exact hmap
    | small | ghost => rfl
  have hlinks : detach (removeFromMain (dropRefs c i false) i).links (c.toHeap.ends q) i =
      detach c.links (c.toHeap.ends q) i :=
    detach_detach (e := c.main) (hlinked.prev_ne hi) (hlinked.next_ne hi)
  have hdet := detached_removeFrom (c := removeFromMain (dropRefs c i false) i) (i := i) hside
  rw [unlinkNode, remove_s3fifo (c := dropRefs c i false) hpol]
  have hq' : (dropRefs c i false).queue i = q := hq
  rw [hq']
  have hclear := fun j (hj : j ≠ i) => clearLinks_of_ne
    (removeFrom (removeFromMain (dropRefs c i false) i) q i).links hj
  exact
    { links := fun j hj => by
        have hfrom := hdet.links j hj
        rw [hmain, hlinks] at hfrom
        exact ⟨(hclear j hj).1.trans hfrom.1, (hclear j hj).2.trans hfrom.2⟩
      ends := by
        have hfrom := hdet.ends
        rw [hmain, hlinks] at hfrom
        exact hfrom
      index := by
        have hfrom := hdet.index
        rw [hindex] at hfrom
        exact hfrom
      queue := hdet.queue
      pool := hdet.pool
      nextNode := hdet.nextNode
      smallSize := hdet.smallSize
      ghostSize := hdet.ghostSize
      cursor := by
        refine hdet.cursor.trans ?_
        simp [removeFromMain, dropRefs, cursorPast, hcursor]
      cursorValid := fun _ => hdet.cursorValid rfl }

/-! ## Nodes in hand -/

section
omit [DecidableEq K]

/-- The policies' marks and cursors are no part of the shape. -/
theorem Shape.marked (h : Shape H key xs held) (visited inWindow : ℕ → Bool)
    (candidate probationEnd hand memo windowTail : Option ℕ) :
    Shape { H with visited, inWindow, evictionCandidate := candidate, probationEnd, sieveHand := hand
                   windowStartMemo := memo, windowTail } key xs held :=
  { h with }

/-- A node in hand may get new links, another tag and another key. -/
theorem Shape.reset (h : Shape H key xs (i :: held)) (q : Queue) (k : Option K) :
    Shape { H with queue := update H.queue i q, links := clearLinks H.links i }
      (update key i k) xs (i :: held) := by
  have hi := h.held_notMem List.mem_cons_self
  have hne : ∀ q, ∀ j ∈ xs q, j ≠ i := fun q j hj heq => hi q (heq ▸ hj)
  have hkey : ∀ q, ∀ j ∈ xs q, update key i k j = key j :=
    fun q j hj => update_of_ne (hne q j hj) _ _
  refine ⟨h.chains.clearLinks hi, h.nodup, h.bound, fun q => (h.index q).congr (hkey q), ?_, ?_,
    h.smallSize, h.ghostSize, h.cursor, h.cursorValid⟩
  · intro q₁ q₂ j₁ j₂ h₁ h₂ hj
    rw [hkey q₁ j₁ h₁, hkey q₂ j₂ h₂] at hj
    exact h.keys q₁ q₂ j₁ j₂ h₁ h₂ hj
  · intro q' j hj
    exact (update_of_ne (hne q' j hj) _ _).trans (h.queue q' j hj)

theorem Shape.release (h : Shape H key xs (i :: held)) :
    Shape { H with pool := i :: H.pool } key xs held := by
  have hperm : (Heap.nodes { H with pool := i :: H.pool } xs held).Perm
      (H.nodes xs (i :: held)) := by
    refine List.perm_iff_count.mpr fun a => ?_
    simp only [Heap.nodes, List.count_append, List.count_cons]
    omega
  exact ⟨h.chains, hperm.nodup_iff.mpr h.nodup, fun j hj => h.bound j (hperm.mem_iff.mp hj),
    h.index, h.keys, h.queue, h.smallSize, h.ghostSize, h.cursor, h.cursorValid⟩

theorem Shape.forget (h : Shape H key xs (i :: held)) : Shape H key xs held := by
  have hsub : (H.nodes xs held).Sublist (H.nodes xs (i :: held)) := by
    simp only [Heap.nodes, List.append_sublist_append_left]
    exact List.sublist_cons_self i held
  exact ⟨h.chains, hsub.nodup h.nodup, fun j hj => h.bound j (hsub.subset hj), h.index, h.keys,
    h.queue, h.smallSize, h.ghostSize, h.cursor, h.cursorValid⟩

theorem Shape.setCursor (h : Shape H key xs held) {cursor : Option ℕ}
    (hcursor : ∀ i, cursor = some i → i ∈ xs .main) :
    Shape { H with cleanupCursor := cursor, cleanupCursorValid := cursor.isSome } key xs held :=
  ⟨h.chains, h.nodup, h.bound, h.index, h.keys, h.queue, h.smallSize, h.ghostSize,
    hcursor, rfl⟩

protected theorem Shape.freeNode (h : Shape c.toHeap c.key xs (i :: held)) :
    Shape (freeNode c i).toHeap (freeNode c i).key xs held := by
  have hreset := h.reset (c.queue i) none
  rw [Function.update_eq_self] at hreset
  by_cases hpool : c.maxPoolSize.all fun m => decide ((c.pool.length : ℤ) < m)
  · simpa [freeNode, hpool] using hreset.release
  · simpa [freeNode, hpool] using hreset.forget

protected theorem Shape.takeNode (h : Shape c.toHeap c.key xs held) :
    Shape (takeNode c).1.toHeap (takeNode c).1.key xs ((takeNode c).2 :: held) := by
  cases hpool : c.pool with
  | cons i pool =>
    have htake : takeNode c = ({ c with pool }, i) := by
      simp only [takeNode, hpool]
    rw [htake]
    have hperm : (Heap.nodes { c.toHeap with pool } xs (i :: held)).Perm
        (c.toHeap.nodes xs held) := by
      refine List.perm_iff_count.mpr fun a => ?_
      simp only [Heap.nodes, List.count_append, List.count_cons, hpool]
      omega
    exact ⟨h.chains, hperm.nodup_iff.mpr h.nodup, fun j hj => h.bound j (hperm.mem_iff.mp hj),
      h.index, h.keys, h.queue, h.smallSize, h.ghostSize, h.cursor, h.cursorValid⟩
  | nil =>
    have htake : takeNode c = ({ c with nextNode := c.nextNode + 1 }, c.nextNode) := by
      simp only [takeNode, hpool]
    rw [htake]
    have hperm : (Heap.nodes { c.toHeap with nextNode := c.nextNode + 1 } xs
        (c.nextNode :: held)).Perm (c.nextNode :: c.toHeap.nodes xs held) := by
      refine List.perm_iff_count.mpr fun a => ?_
      simp only [Heap.nodes, List.count_append, List.count_cons]
      omega
    refine ⟨h.chains, hperm.nodup_iff.mpr (List.nodup_cons.mpr ⟨fun hmem => ?_, h.nodup⟩),
      fun j hj => ?_, h.index, h.keys, h.queue, h.smallSize, h.ghostSize, h.cursor,
      h.cursorValid⟩
    · exact absurd (h.bound _ hmem) (lt_irrefl _)
    · rcases List.mem_cons.mp (hperm.mem_iff.mp hj) with rfl | hj
      · exact Nat.lt_succ_self _
      · exact Nat.lt_succ_of_lt (h.bound j hj)

theorem Shape.allocNode {v : V} {w e : ℚ} (h : Shape c.toHeap c.key xs held) :
    Shape (allocNode c k v w e).1.toHeap (allocNode c k v w e).1.key xs
      ((allocNode c k v w e).2 :: held) :=
  (h.takeNode.reset .main (some k)).marked _ _ _ _ _ _ _

end

/-! ## What the calls leave alone -/

@[simp] theorem remove_toConfig : (remove c i).toConfig = c.toConfig := by
  cases hp : c.policy <;> cases hq : c.queue i <;> simp only [remove, hp, hq] <;> rfl

@[simp] theorem remove_toFields : (remove c i).toFields = c.toFields := by
  cases hp : c.policy <;> cases hq : c.queue i <;> simp only [remove, hp, hq] <;> rfl

@[simp] theorem remove_currentWeight : (remove c i).currentWeight = c.currentWeight := by
  cases hp : c.policy <;> cases hq : c.queue i <;> simp only [remove, hp, hq] <;> rfl

@[simp] theorem remove_cleanupCursor : (remove c i).cleanupCursor = c.cleanupCursor := by
  cases hp : c.policy <;> cases hq : c.queue i <;> simp only [remove, hp, hq] <;> rfl

@[simp] theorem unlinkNode_toConfig : (unlinkNode c i adv).toConfig = c.toConfig :=
  remove_toConfig

@[simp] theorem unlinkNode_toFields : (unlinkNode c i adv).toFields = c.toFields :=
  remove_toFields

@[simp] theorem unlinkNode_currentWeight :
    (unlinkNode c i adv).currentWeight = c.currentWeight - c.weight i :=
  remove_currentWeight

@[simp] theorem unlinkNode_cleanupCursor :
    (unlinkNode c i adv).cleanupCursor = cursorPast c i :=
  remove_cleanupCursor

@[simp] theorem abortInflight_toConfig {k : Option K} :
    (abortInflight c k).toConfig = c.toConfig := by
  unfold abortInflight
  split <;> rfl

@[simp] theorem abortInflight_toFields {k : Option K} :
    (abortInflight c k).toFields = c.toFields := by
  unfold abortInflight
  split <;> rfl

@[simp] theorem abortInflight_toHeap {k : Option K} : (abortInflight c k).toHeap = c.toHeap := by
  unfold abortInflight
  split <;> rfl

@[simp] theorem abortInflight_currentWeight {k : Option K} :
    (abortInflight c k).currentWeight = c.currentWeight := by
  unfold abortInflight
  split <;> rfl

/-! ## Weights -/

theorem weightOf_congr {w' : ℕ → ℚ} (h : ∀ q, ∀ j ∈ xs q, w' j = w j) :
    weightOf w' xs = weightOf w xs := by
  refine congrArg List.sum (List.map_congr_left fun j hj => ?_)
  rcases List.mem_append.mp hj with hj | hj
  · exact h .main j hj
  · exact h .small j hj

theorem weightOf_erase (hxs : xs q = l ++ i :: r) (hq : q ≠ .ghost) :
    weightOf w (update xs q (l ++ r)) = weightOf w xs - w i := by
  cases q with
  | main | small => simp [weightOf, hxs, update]; ring
  | ghost => exact absurd rfl hq

theorem weightOf_perm (hq : q ≠ .ghost) (hys : ys.Perm (i :: xs q)) :
    weightOf w (update xs q ys) = weightOf w xs + w i := by
  have hsum := (hys.map w).sum_eq
  simp only [List.map_cons, List.sum_cons] at hsum
  cases q with
  | main | small => simp [weightOf, update, hsum]; ring
  | ghost => exact absurd rfl hq

theorem weightOf_append (hq : q ≠ .ghost) :
    weightOf w (update xs q (xs q ++ [i])) = weightOf w xs + w i := by
  cases q with
  | main | small => simp [weightOf, update]; ring
  | ghost => exact absurd rfl hq

theorem weightOf_reorder (hys : ys.Perm (xs q)) :
    weightOf w (update xs q ys) = weightOf w xs := by
  have hsum := (hys.map w).sum_eq
  cases q <;> simp [weightOf, update, hsum]

theorem weightOf_ghost :
    weightOf w (update xs .ghost ys) = weightOf w xs := rfl

end

end PerformanceHelpers.PowerCache
