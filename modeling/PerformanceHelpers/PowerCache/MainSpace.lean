import PerformanceHelpers.PowerCache.Sweeps

/- What the admission window makes of the list.

   The list is main space and behind it the window (`Admits`): a node comes in at the
   tail, and goes from the head of the window to the end of main space. Whatever leaves
   the window takes the memo of `_windowOldest` with it, so the memo is a window node,
   and one without a window node before it is the first. Main space keeps its order but
   for one node at its end, which was used or comes out of the window (`Behind`). -/
namespace PerformanceHelpers.PowerCache

variable {K V : Type} {c c' : Cache K V} {main main' main'' window window' l r xs : List ℕ}
  {i j : ℕ} {k : K} {v : V} {w x now : ℚ} {used : ℕ → Bool}

def mainSpace (c : Cache K V) : List ℕ := (nodes c).filter fun i => !c.inWindow i

def windowNodes (c : Cache K V) : List ℕ := (nodes c).filter c.inWindow

/-- `_windowOldest()` without a memo: a walk from the tail. -/
def freshOldest (c : Cache K V) : Option ℕ :=
  ((walk c.links.prev c.nextNode c.main.tail).takeWhile c.inWindow).getLast?

/-- The window is the end of the list and no longer than it may be, no entry in it is missing
from the list, and the memo is what a walk would find. -/
structure WindowKept (c : Cache K V) : Prop where
  run : nodes c = mainSpace c ++ windowNodes c
  found : ∀ key, ∀ i ∈ c.map.get key, c.inWindow i → i ∈ windowNodes c
  fits : FitsWindow c.toConfig (windowNodes c).length
  memo : (windowOldest c).2 = freshOldest c

/-- `main` without the nodes that were used is in its order in `main'`, but for what is gone,
and behind it at most one node, which was used or was not in `main`. -/
def Behind (used : ℕ → Bool) (main main' : List ℕ) : Prop :=
  ∃ kept moved, main' = kept ++ moved ∧ moved.length ≤ 1 ∧
    kept.Sublist (main.filter fun i => !used i) ∧ ∀ i ∈ moved, i ∉ main ∨ used i = true

theorem Behind.shrink (h : Behind used main main') (hsub : main''.Sublist main') :
    Behind used main main'' := by
  obtain ⟨kept, moved, rfl, hlen, hkept, hmoved⟩ := h
  obtain ⟨kept', moved', rfl, hk, hm⟩ := List.sublist_append_iff.mp hsub
  exact ⟨kept', moved', rfl, hm.length_le.trans hlen, hk.trans hkept,
    fun i hi => hmoved i (hm.subset hi)⟩

theorem Behind.of_sublist (hsub : main'.Sublist main) (hused : ∀ i ∈ main, used i = false) :
    Behind used main main' := by
  have hfilter : (main.filter fun i => !used i) = main := by
    rw [List.filter_eq_self]
    intro i hi
    simp [hused i hi]
  exact ⟨main', [], by simp, by simp, by rw [hfilter]; exact hsub, by simp⟩

theorem Behind.enter (hsub : main'.Sublist main) (hi : i ∉ main) (hused : ∀ i ∈ main, used i = false) :
    Behind used main (main' ++ [i]) := by
  obtain ⟨kept, moved, rfl, -, hkept, hmoved⟩ := Behind.of_sublist hsub hused
  have hmoved' : moved = [] := by
    rw [List.eq_nil_iff_forall_not_mem]
    intro j hj
    rcases hmoved j hj with hout | hin
    · exact hout (hsub.subset (List.mem_append_right _ hj))
    · rw [hused j (hsub.subset (List.mem_append_right _ hj))] at hin
      cases hin
  subst hmoved'
  refine ⟨kept, [i], by simp, by simp, hkept, fun j hj => ?_⟩
  rw [List.mem_singleton.mp hj]
  exact Or.inl hi

theorem Behind.use (hused : ∀ j ∈ l ++ i :: r, used j = true ↔ j = i) (hi : i ∉ l ++ r) :
    Behind used (l ++ i :: r) (l ++ r ++ [i]) := by
  have hrest : ((l ++ i :: r).filter fun j => !used j) = l ++ r := by
    have hin : used i = true := (hused i (by simp)).mpr rfl
    have hout : ∀ j ∈ l ++ r, used j = false := by
      intro j hj
      have hj' : j ∈ l ++ i :: r := by
        rcases List.mem_append.mp hj with hj | hj <;> simp [hj]
      by_contra hne
      have heq := (hused j hj').mp (by simpa using hne)
      exact hi (heq ▸ hj)
    have hl : (l.filter fun j => !used j) = l := by
      rw [List.filter_eq_self]
      intro j hj
      simp [hout j (List.mem_append_left r hj)]
    have hr : (r.filter fun j => !used j) = r := by
      rw [List.filter_eq_self]
      intro j hj
      simp [hout j (List.mem_append_right l hj)]
    rw [List.filter_append, List.filter_cons_of_neg (by simp [hin]), hl, hr]
  refine ⟨l ++ r, [i], rfl, by simp, by rw [hrest], fun j hj => ?_⟩
  rw [List.mem_singleton.mp hj]
  exact Or.inr ((hused i (by simp)).mpr rfl)

def OrderKept (c c' : Cache K V) [DecidableEq K] (accessed : Option K) : Prop :=
  Behind (fun i => decide (c.key i = accessed)) (mainSpace c) (mainSpace c')

/-! ## The oldest node of the window -/

structure Marked (c : Cache K V) (main window : List ℕ) : Prop where
  outside : ∀ i ∈ main, c.inWindow i = false
  inside : ∀ i ∈ window, c.inWindow i = true
  oldest : ∀ m ∈ c.windowStartMemo, m ∈ window

namespace Marked

section
variable (h : Marked c main window)
include h

theorem congr (hin : c'.inWindow = c.inWindow)
    (hmemo : ∀ m ∈ c'.windowStartMemo, m ∈ c.windowStartMemo) : Marked c' main window := by
  refine ⟨?_, ?_, fun m hm => h.oldest m (hmemo m hm)⟩
  · rw [hin]
    exact h.outside
  · rw [hin]
    exact h.inside

section
variable (hlinked : Linked c.links c.main (main ++ window))
include hlinked

/-- A walk from the tail stops at the first node of the window. -/
theorem freshOldest_eq
    (hlen : (main ++ window).length ≤ c.nextNode) : freshOldest c = window.head? := by
  have hinside : ∀ i ∈ window.reverse, c.inWindow i = true := by
    intro i hi
    exact h.inside i (List.mem_reverse.mp hi)
  have hrest : main.reverse.takeWhile c.inWindow = [] := by
    rw [List.takeWhile_eq_nil_iff]
    intro hpos
    have hmem : main.reverse.get ⟨0, hpos⟩ ∈ main := List.mem_reverse.mp (List.get_mem _ _)
    rw [h.outside _ hmem]
    exact Bool.false_ne_true
  rw [freshOldest, hlinked.walk_prev hlen, List.reverse_append, List.takeWhile_append_of_pos hinside,
    hrest, List.append_nil, List.getLast?_reverse]

theorem windowOldest_eq
    (hlen : (main ++ window).length ≤ c.nextNode) : windowOldest c =
      ({ c with windowStartMemo := window.head?, windowTail := c.main.tail }, window.head?) := by
  have hfresh := h.freshOldest_eq hlinked hlen
  unfold freshOldest at hfresh
  unfold windowOldest
  rw [hfresh]
  split
  · next m hmemo =>
    rw [Option.filter_eq_some_iff, Bool.and_eq_true, beq_iff_eq] at hmemo
    obtain ⟨hm, hprev, htail⟩ := hmemo
    have hhead : window.head? = some m := by
      obtain ⟨a, b, rfl⟩ := List.append_of_mem (h.oldest m hm)
      have hlinks := (hlinked.links (main ++ a) m b (by simp)).1
      cases ha : a.getLast? with
      | none =>
        rw [List.getLast?_eq_none_iff] at ha
        rw [ha]
        rfl
      | some p =>
        have hp : c.inWindow p = true := h.inside p (List.mem_append_left _ (List.mem_of_getLast? ha))
        rw [hlinks, List.getLast?_append, ha] at hprev
        simp [hp] at hprev
    rw [hhead, ← hm, ← htail]
  · rfl

/-- So it may be trusted. -/
theorem trusted :
    Trusted c (main ++ window) := by
  intro m hm _
  have hmem := h.oldest m hm
  refine ⟨List.mem_append_right main hmem, h.inside m hmem, fun t ht => ?_⟩
  rw [Option.mem_def, hlinked.tail_eq, List.getLast?_append_of_ne_nil _ (List.ne_nil_of_mem hmem)] at ht
  exact h.inside t (List.mem_of_getLast? ht)

end

end

end Marked

/-- Where a list is split is told by the first node behind. -/
theorem append_split (h : l ++ r = main ++ window) (hnd : (l ++ r).Nodup)
    (hhead : r.head? = window.head?) : l = main ∧ r = window := by
  have hlen : l.length = main.length := by
    cases window with
    | nil =>
      obtain rfl := List.head?_eq_none_iff.mp hhead
      simpa using congrArg List.length h
    | cons j window =>
      obtain ⟨r, rfl⟩ := List.head?_eq_some_iff.mp hhead
      have hidx : ∀ (a b : List ℕ), (a ++ j :: b).Nodup → (a ++ j :: b).idxOf j = a.length := by
        intro a b hab
        have hj : j ∉ a := fun hj => (List.nodup_middle.mp hab).notMem (List.mem_append_left b hj)
        rw [List.idxOf_append_of_notMem hj, List.idxOf_cons_self, Nat.add_zero]
      have hl := hidx l r hnd
      rw [h] at hnd hl
      rw [← hl]
      exact hidx main window hnd
  exact List.append_inj h hlen

variable [DecidableEq K]

/-! ## Moves -/

/-- A cache with an admission window between two calls. -/
structure Admits (c : Cache K V) (main window : List ℕ) : Prop extends
    Listed c (main ++ window), Marked c main window where
  windowed : Windowed c.toConfig
  lru : c.policy = .lru

def without (i : ℕ) (xs : List ℕ) : List ℕ := xs.filter fun j => decide (j ≠ i)

theorem without_sublist : (without i xs).Sublist xs := List.filter_sublist

theorem without_append : without i (l ++ r) = without i l ++ without i r := List.filter_append _ _

theorem without_self (h : i ∉ xs) : without i xs = xs := by
  unfold without
  rw [List.filter_eq_self]
  intro j hj
  have hne : j ≠ i := by
    rintro rfl
    exact h hj
  simpa using hne

theorem without_middle (h : i ∉ l ++ r) : without i (l ++ i :: r) = l ++ r := by
  have hrest := without_self h
  rw [without_append] at hrest ⊢
  rw [← hrest]
  unfold without
  rw [List.filter_cons_of_neg (by simp)]

namespace Admits

omit [DecidableEq K] in
theorem congr (h : Admits c main window) (hconfig : c'.toConfig = c.toConfig)
    (hfields : c'.toFields = c.toFields) (hheap : c'.toHeap = c.toHeap)
    (hweight : c'.currentWeight = c.currentWeight) : Admits c' main window := by
  refine ⟨h.toListed.congr hconfig hfields hheap hweight, h.toMarked.congr ?_ ?_, ?_, ?_⟩
  · rw [hheap]
  · rw [hheap]
    exact fun _ hm => hm
  · rw [hconfig]
    exact h.windowed
  · rw [hconfig]
    exact h.lru

theorem unlinked (h : Admits c main window) (hi : i ∈ main ++ window) (advance : Bool)
    (cs : Counters) (cbs : List (Callback K V)) :
    Admits (freeNode { unlinkNode c i advance with counters := cs, log := cbs } i)
      (without i main) (without i window) := by
  obtain ⟨l, r, hxs⟩ := List.append_of_mem hi
  have hlisted : Listed c (l ++ i :: r) := hxs ▸ h.toListed
  have hconfig : (unlinkNode c i advance).toConfig = c.toConfig := unlinkNode_toConfig
  have hrest : l ++ r = without i main ++ without i window := by
    rw [← without_append, hxs, without_middle hlisted.notMem]
  refine ⟨hrest ▸ hlisted.unlinked cs cbs, ⟨?_, ?_, fun m hm => ?_⟩, ?_, ?_⟩
  · intro j hj
    show (unlinkNode c i advance).inWindow j = false
    rw [unlinkNode_inWindow]
    exact h.outside j (without_sublist.subset hj)
  · intro j hj
    show (unlinkNode c i advance).inWindow j = true
    rw [unlinkNode_inWindow]
    exact h.inside j (without_sublist.subset hj)
  · change m ∈ (unlinkNode c i advance).windowStartMemo at hm
    rw [unlinkNode_windowStartMemo] at hm
    split at hm
    · cases hm
    · next hout =>
      have hne : m ≠ i := by
        rintro rfl
        exact hout (h.inside m (h.oldest m hm))
      exact List.mem_filter.mpr ⟨h.oldest m hm, by simpa using hne⟩
  · show Windowed (unlinkNode c i advance).toConfig
    rw [hconfig]
    exact h.windowed
  · show (unlinkNode c i advance).policy = .lru
    rw [hconfig]
    exact h.lru

/-- A node that is put in front of the window, which it may have left. -/
theorem stepped (h : Admits c main window) (hi : i ∈ main ++ window) :
    Stepped c (insertAtMainSpaceMrU (remove c i) i) i (main ++ window)
      (without i main ++ i :: without i window) ∧
    (insertAtMainSpaceMrU (remove c i) i).windowStartMemo = (without i window).head? := by
  obtain ⟨l, r, hxs⟩ := List.append_of_mem hi
  have hlisted : Listed c (l ++ i :: r) := hxs ▸ h.toListed
  have hrest : l ++ r = without i main ++ without i window := by
    rw [← without_append, hxs, without_middle hlisted.notMem]
  have hlinked : Linked (remove c i).links (remove c i).main (without i main ++ without i window) := by
    rw [← hrest]
    exact hlisted.remove.1.linked .main
  have hmarked : Marked (remove c i) (without i main) (without i window) := by
    refine ⟨fun j hj => ?_, fun j hj => ?_, fun m hm => ?_⟩
    · rw [remove_inWindow]
      exact h.outside j (without_sublist.subset hj)
    · rw [remove_inWindow]
      exact h.inside j (without_sublist.subset hj)
    · rw [remove_windowStartMemo] at hm
      split at hm
      · cases hm
      · next hout =>
        have hne : m ≠ i := by
          rintro rfl
          exact hout (h.inside m (h.oldest m hm))
        exact List.mem_filter.mpr ⟨h.oldest m hm, by simpa using hne⟩
  have hlen : (without i main ++ without i window).length ≤ (remove c i).nextNode := by
    have hle := hlisted.length_le
    rw [← hrest, (kept_remove (hlisted.queue (by simp))).nextNode]
    simp only [List.length_append, List.length_cons] at hle ⊢
    omega
  have htrusted : Trusted (remove c i) (l ++ r) := hrest ▸ hmarked.trusted hlinked
  obtain ⟨l', r', hsplit, hhead, hmemo, hstep⟩ :=
    insertAtMainSpaceMrU_stepped hlisted htrusted h.lru
  rw [hmarked.windowOldest_eq hlinked hlen] at hhead
  have hnd : (l' ++ r').Nodup := by
    rw [← hsplit, hrest]
    exact hlinked.nodup
  obtain ⟨rfl, rfl⟩ := append_split (hsplit.symm.trans hrest) hnd hhead
  rw [hxs]
  exact ⟨hstep, hmemo⟩

/-- A node of main space that is used goes to the end of it. -/
theorem useMain (h : Admits c (l ++ i :: r) window) : Admits (moveToTail c i) (l ++ r ++ [i]) window := by
  have hi : i ∈ (l ++ i :: r) ++ window := by simp
  obtain ⟨hstep, hmemo⟩ := h.stepped hi
  have hnd := h.toListed.linked.nodup
  have hparts := List.nodup_append.mp hnd
  have hnot : i ∉ l ++ r := (List.nodup_middle.mp hparts.1).notMem
  have hout : i ∉ window := fun hw => hparts.2.2 i (by simp) i hw rfl
  rw [without_middle hnot, without_self hout] at hstep
  rw [without_self hout] at hmemo
  have hin : c.inWindow i = false := h.outside i (by simp)
  have hmove : moveToTail c i = insertAtMainSpaceMrU (remove c i) i := by
    have hwindowed : c.windowSize.all (fun n => decide (0 < n)) = true := h.windowed
    simp only [moveToTail, h.lru, hwindowed, hin, Bool.not_false, Bool.and_true, if_true]
  rw [hmove]
  have hlisted := hstep.listed
  rw [List.append_cons] at hlisted
  refine ⟨hlisted, ⟨fun j hj => ?_, fun j hj => ?_, fun m hm => ?_⟩, ?_, ?_⟩
  · rw [hstep.inWindow]
    refine h.outside j ?_
    simp only [List.mem_append, List.mem_singleton, List.mem_cons] at hj ⊢
    tauto
  · rw [hstep.inWindow]
    exact h.inside j hj
  · rw [hmemo] at hm
    exact List.mem_of_head? hm
  · rw [hstep.config]
    exact h.windowed
  · rw [hstep.config]
    exact h.lru

/-- One of the window goes to the end of the window. -/
theorem useWindow (h : Admits c main (l ++ i :: r)) : Admits (moveToTail c i) main (l ++ r ++ [i]) := by
  have hin : c.inWindow i = true := h.inside i (by simp)
  have hpast : PastWindow c i := by
    by_contra hnot
    rw [(not_pastWindow_iff.mp hnot).2] at hin
    cases hin
  have hlisted : Listed c ((main ++ l) ++ i :: r) := by
    rw [List.append_assoc]
    exact h.toListed
  obtain ⟨hmoved, -⟩ := hlisted.moveToTail_lru h.lru hpast
  have hconfig := (moveToTail_frame_list h.policy hpast).1
  have hframe : (moveToTail c i).inWindow = c.inWindow ∧
      ∀ m ∈ (moveToTail c i).windowStartMemo, m ∈ c.windowStartMemo := by
    rw [moveToTail_lru h.lru hpast]
    split
    · exact ⟨rfl, fun _ hm => hm⟩
    · refine ⟨remove_inWindow, fun m hm => ?_⟩
      change m ∈ (remove c i).windowStartMemo at hm
      rw [remove_windowStartMemo, if_pos hin] at hm
      cases hm
  refine ⟨by simpa using hmoved, ⟨fun j hj => ?_, fun j hj => ?_, fun m hm => ?_⟩, ?_, ?_⟩
  · rw [hframe.1]
    exact h.outside j hj
  · rw [hframe.1]
    refine h.inside j ?_
    simp only [List.mem_append, List.mem_singleton, List.mem_cons] at hj ⊢
    tauto
  · have hm' := h.oldest m (hframe.2 m hm)
    simp only [List.mem_append, List.mem_singleton, List.mem_cons] at hm' ⊢
    tauto
  · rw [hconfig]
    exact h.windowed
  · rw [hconfig]
    exact h.lru

/-- The oldest node of the window goes to the end of main space. -/
protected theorem promoteFromWindow (h : Admits c main (i :: window)) :
    Admits (promoteFromWindow c i) (main ++ [i]) window := by
  obtain ⟨hstep, hmemo⟩ := h.stepped (i := i) (by simp)
  have hnd := h.toListed.linked.nodup
  have hparts := List.nodup_append.mp hnd
  have hout : i ∉ window := (List.nodup_cons.mp hparts.2.1).1
  have hmain : i ∉ main := fun hm => hparts.2.2 i hm i (by simp) rfl
  have hwindow : without i (i :: window) = window := without_middle (l := []) hout
  rw [without_self hmain, hwindow] at hstep
  rw [hwindow] at hmemo
  have hlisted := hstep.listed
  have hlisted' : Listed (promoteFromWindow c i) (main ++ i :: window) :=
    ⟨hlisted.policy, ⟨hlisted.layout.shape.marked _ _ _ _ _ _ _, hlisted.layout.weight,
      hlisted.layout.ghostWeight⟩, hlisted.boundary, hlisted.hand⟩
  have hin : (promoteFromWindow c i).inWindow = Function.update c.inWindow i false := by
    rw [← hstep.inWindow]
    rfl
  have hconfig : (promoteFromWindow c i).toConfig = c.toConfig := hstep.config
  rw [List.append_cons] at hlisted'
  refine ⟨hlisted', ⟨fun j hj => ?_, fun j hj => ?_, fun m hm => ?_⟩, ?_, ?_⟩
  · rw [hin]
    rcases List.mem_append.mp hj with hold | hnew
    · have hne : j ≠ i := by
        rintro rfl
        exact hmain hold
      rw [Function.update_of_ne hne]
      exact h.outside j hold
    · rw [List.mem_singleton.mp hnew, Function.update_self]
  · have hne : j ≠ i := by
      rintro rfl
      exact hout hj
    rw [hin, Function.update_of_ne hne]
    exact h.inside j (List.mem_cons_of_mem i hj)
  · change m ∈ (insertAtMainSpaceMrU (remove c i) i).windowStartMemo at hm
    rw [hmemo] at hm
    exact List.mem_of_head? hm
  · rw [hconfig]
    exact h.windowed
  · rw [hconfig]
    exact h.lru

protected theorem enterWindow (h : Admits c main window) (hready : Ready c (main ++ window))
    (hfresh : c.map.get k = none) :
    (takeNode c).2 ∉ main ++ window ∧
      Admits (enterWindow c k v w x) main (window ++ [(takeNode c).2]) := by
  have hnew : (takeNode c).2 ∉ main ++ window :=
    h.layout.shape.takeNode.held_notMem List.mem_cons_self .main
  obtain ⟨hlisted, -⟩ := enterWindow_listed (v := v) (w := w) (x := x) hready h.lru hfresh
  have hin := enterWindow_inWindow (c := c) (k := k) (v := v) (w := w) (x := x) h.lru
  have hconfig : (enterWindow c k v w x).toConfig = c.toConfig := insertNode_frame.1
  obtain ⟨hmemo, -⟩ :=
    insertNode_window (c := c) (k := k) (v := v) (w := w) (x := x) h.policy
  have hold : ∀ j ∈ main ++ window, (enterWindow c k v w x).inWindow j = c.inWindow j := by
    intro j hj
    have hne : j ≠ (takeNode c).2 := by
      rintro rfl
      exact hnew hj
    rw [hin, Function.update_of_ne hne]
  rw [List.append_assoc] at hlisted
  refine ⟨hnew, hlisted, ⟨fun j hj => ?_, fun j hj => ?_, fun m hm => ?_⟩, ?_, ?_⟩
  · rw [hold j (List.mem_append_left window hj)]
    exact h.outside j hj
  · rcases List.mem_append.mp hj with hj' | hj'
    · rw [hold j (List.mem_append_right main hj')]
      exact h.inside j hj'
    · rw [List.mem_singleton.mp hj', hin, Function.update_self]
  · change m ∈ (insertNode c k v w x).windowStartMemo at hm
    rw [hmemo] at hm
    exact List.mem_append_left _ (h.oldest m hm)
  · rw [hconfig]
    exact h.windowed
  · rw [hconfig]
    exact h.lru

section
omit [DecidableEq K]

theorem windowOldest_eq (h : Admits c main window) : windowOldest c =
    ({ c with windowStartMemo := window.head?, windowTail := c.main.tail }, window.head?) :=
  h.toMarked.windowOldest_eq h.linked h.length_le

theorem remember (h : Admits c main window) : Admits (windowOldest c).1 main window := by
  rw [h.windowOldest_eq]
  exact ⟨⟨h.policy, ⟨h.layout.shape.marked _ _ _ _ _ _ _, h.layout.weight, h.layout.ghostWeight⟩,
    h.boundary, h.hand⟩, ⟨h.outside, h.inside, fun m hm => List.mem_of_head? hm⟩, h.windowed, h.lru⟩

theorem windowVictim_eq (h : Admits c main (i :: window)) (hold : windowOldest c = (c, some i)) :
    windowVictim c = (c, main.getLast?) := by
  have hprev : c.links.prev i = main.getLast? := h.toListed.prev_eq
  simp only [windowVictim, hold, Option.bind_some, hprev]
  cases main with
  | nil => simp
  | cons j main =>
    have hhead : c.main.head = some j := h.linked.head_eq
    have hne : j ≠ i := by
      rintro rfl
      simpa using h.linked.nodup
    rw [hhead, if_neg (by simpa using hne)]

end

theorem evictByWindow (h : Admits c main window) (hi : i ∈ main ++ window) :
    Admits (evictByWindow c i) (without i main) (without i window) := by
  obtain ⟨cs, hdrop⟩ := dropNode_eq c i true "evicted"
  rw [PowerCache.evictByWindow, hdrop]
  exact h.unlinked hi true cs _

/-- While all entries fit the window they stay. Once they do not, the oldest node leaves the
window: main space makes room for it, or has it, or it goes. -/
theorem arbitrate (sketch : List K → Option K → ℕ) (n : ℕ) (h : Admits c main (i :: window)) :
    FitsWindow c.toConfig (main ++ i :: window).length ∧ arbitrateWindow c sketch n = c ∨
      ∃ main' kept, Admits (arbitrateWindow c sketch n) main' window ∧ kept.Sublist main ∧
        (main' = kept ∨ main' = kept ++ [i]) := by
  by_cases hfits : FitsWindow c.toConfig (main ++ i :: window).length
  · refine Or.inl ⟨hfits, if_pos ?_⟩
    rw [h.size_eq]
    exact hfits
  right
  have hsize : ¬(c.windowSize.all fun s => decide ((c.map.size : ℤ) ≤ s)) = true := by
    rw [h.size_eq]
    exact hfits
  have hremember := h.remember
  obtain ⟨c₂, hc₂⟩ : ∃ c₂, c₂ = (windowOldest c).1 := ⟨_, rfl⟩
  have hold : windowOldest c = (c₂, some i) := by
    rw [hc₂, h.windowOldest_eq]
    rfl
  have hold₂ : windowOldest c₂ = (c₂, some i) := by
    have hidem := windowOldest_idem (c := c)
    rwa [hold] at hidem
  rw [← hc₂] at hremember
  have hpromote := hremember.promoteFromWindow
  simp only [arbitrateWindow, if_neg hsize, hold, hremember.windowVictim_eq hold₂]
  cases hlast : main.getLast? with
  | none => exact ⟨main ++ [i], main, hpromote, .refl main, Or.inr rfl⟩
  | some j =>
    obtain ⟨main₀, rfl⟩ := List.getLast?_eq_some_iff.mp hlast
    have hparts := List.nodup_append.mp h.toListed.linked.nodup
    have hjmain : j ∉ main₀ := by
      have hnd := hparts.1
      simpa using (List.nodup_middle.mp hnd).notMem
    have hjout : j ∉ i :: window := fun hj => hparts.2.2 j (by simp) j hj rfl
    have hiout : i ∉ main₀ ++ [j] := fun hi => hparts.2.2 i hi i (by simp) rfl
    have hiwindow : i ∉ window := (List.nodup_cons.mp hparts.2.1).1
    have hwithout : without j (main₀ ++ [j]) = main₀ := by
      have hmiddle := without_middle (i := j) (l := main₀) (r := []) (by simpa using hjmain)
      simpa using hmiddle
    simp only []
    split
    · split
      · -- the last node of main space goes
        have hevict := hremember.evictByWindow (i := j) (by simp)
        rw [hwithout, without_self hjout] at hevict
        exact ⟨main₀ ++ [i], main₀, hevict.promoteFromWindow, List.sublist_append_left _ _, Or.inr rfl⟩
      · -- the oldest node of the window goes
        have hcount : Admits { c₂ with counters := { c₂.counters with
            rejectedAdmission := c₂.counters.rejectedAdmission + 1 } } (main₀ ++ [j]) (i :: window) :=
          hremember.congr rfl rfl rfl rfl
        have hevict := hcount.evictByWindow (i := i) (by simp)
        rw [without_self hiout, show without i (i :: window) = window from
          without_middle (l := []) hiwindow] at hevict
        exact ⟨main₀ ++ [j], main₀ ++ [j], hevict, .refl _, Or.inl rfl⟩
    · exact ⟨main₀ ++ [j] ++ [i], main₀ ++ [j], hpromote, .refl _, Or.inr rfl⟩

omit [DecidableEq K] in
theorem ready (h : Admits c main window) (hready : Ready c xs) : Ready c (main ++ window) := by
  have hnodes : nodes c = main ++ window := h.linked.walk_next h.length_le
  rw [← hnodes, hready.nodes_eq]
  exact hready

end Admits

end PerformanceHelpers.PowerCache
