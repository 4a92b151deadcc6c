import PerformanceHelpers.PowerCache.ListMoves

/- The calls of a cache of one list, as rows of moves.

   Between two calls the eviction candidate is on a node of the list (`Ready`), or a
   later eviction would take out a node that is not there. A call keeps it there
   unless it takes the candidate's node out of the middle of the list, by a deletion
   or because the entry has expired: then nothing moves it on. Where the candidate never
   leaves the head (`Steady`), that cannot happen. -/
namespace PerformanceHelpers.PowerCache
open Function (update update_of_ne)

variable {K V : Type}

structure Setup (c : Config K V) : Prop where
  windowed : Windowed c → c.sketch ≠ none
  sketch : c.sketch ≠ none → c.policy = .lru

/-- The candidate is the head of the list: what it is not on is not evicted. -/
def Steady (c : Config K V) : Prop := c.policy = .sieve ∨ c.missCost = none ∧ ¬Windowed c

theorem InOrder.steady {c : Config K V} (h : InOrder c) : Steady c := Or.inr h.2

structure Settled (c : Cache K V) (xs : List ℕ) : Prop extends Listed c xs where
  setup : Setup c.toConfig
  memo : Memo c xs
  headed : Steady c.toConfig → c.evictionCandidate = xs.head?

structure Ready (c : Cache K V) (xs : List ℕ) : Prop extends Settled c xs where
  parked : Parked c xs

variable [DecidableEq K]

structure Goes (c : Cache K V) (xs : List ℕ) (ms : List (Mark K)) (c' : Cache K V) (xs' : List ℕ) :
    Prop where
  moves : Moves c xs ms c' xs'
  ready : Ready c' xs'

def drops (c c' : Cache K V) : List (Mark K) :=
  (c'.log.drop c.log.length).filterMap Callback.mark

section
variable {c c' c'' : Cache K V} {xs xs' xs'' l r : List ℕ} {ms ms' : List (Mark K)} {i : ℕ} {k : K}
  {m : Mark K} {v : V} {w x now : ℚ}

theorem Goes.refl (h : Ready c xs) : Goes c xs [] c xs := ⟨.refl c xs, h⟩

theorem Goes.trans (h : Goes c xs ms c' xs') (h' : Goes c' xs' ms' c'' xs'') :
    Goes c xs (ms ++ ms') c'' xs'' := ⟨h.moves.trans h'.moves, h'.ready⟩

theorem Moves.drops (h : Moves c xs ms c' xs') (hlisted : Listed c xs) :
    drops c c' = ms.filter Mark.leaves := by
  obtain ⟨cbs, hlog, hmarks⟩ := h.log hlisted
  rw [PowerCache.drops, hlog, List.drop_left, hmarks]

theorem Goes.drops (h : Goes c xs ms c' xs') (hready : Ready c xs)
    (hms : ∀ m ∈ ms, m.leaves) : drops c c' = ms := by
  rw [h.moves.drops hready.toListed]
  exact List.filter_eq_self.mpr hms

/-! ## Single moves -/

theorem Settled.head (h : Settled c xs) : Goes c xs [] { c with evictionCandidate := c.main.head } xs := by
  have hmove : Move c xs [] { c with evictionCandidate := c.main.head } xs := .head
  have hhead : c.main.head = xs.head? := h.linked.head_eq
  refine ⟨.of_move hmove, ⟨⟨hmove.listed h.toListed, h.setup,
    h.memo.congr rfl rfl rfl rfl rfl rfl, fun _ => hhead⟩, fun i hi => ?_⟩⟩
  exact List.mem_of_head? (hhead.symm.trans hi)

namespace Ready

/-- Counters, callbacks, fetches and what was counted are no part of the list. -/
theorem note (h : Ready c xs) (cbs : List (Callback K V)) (hconfig : c'.toConfig = c.toConfig)
    (hkey : c'.key = c.key) (hweight : c'.weight = c.weight) (hheap : c'.toHeap = c.toHeap)
    (hcurrent : c'.currentWeight = c.currentWeight) (hlog : c'.log = c.log ++ cbs)
    (hcbs : cbs.filterMap Callback.mark = []) : Goes c xs [] c' xs := by
  have hmove : Move c xs [] c' xs := .note cbs hconfig hkey hweight hheap hcurrent hlog hcbs
  refine ⟨.of_move hmove, ⟨⟨hmove.listed h.toListed, ?_, ?_, ?_⟩, ?_⟩⟩
  · rw [hconfig]
    exact h.setup
  · apply h.memo.congr hconfig <;> rw [hheap]
  · rw [hconfig, hheap]
    exact h.headed
  · show Parked c' xs
    unfold Parked
    rw [hheap]
    exact h.parked

theorem quiet (h : Ready c xs) (hconfig : c'.toConfig = c.toConfig)
    (hfields : c'.toFields = c.toFields) (hheap : c'.toHeap = c.toHeap)
    (hcurrent : c'.currentWeight = c.currentWeight) (hlog : c'.log = c.log) :
    Goes c xs [] c' xs :=
  h.note [] hconfig (congrArg Fields.key hfields) (congrArg Fields.weight hfields) hheap hcurrent
    (hlog.trans (List.append_nil _).symm) rfl

theorem cursor (h : Ready c xs) (cursor : Option ℕ) (hmem : ∀ i ∈ cursor, i ∈ xs) :
    Goes c xs [] { c with cleanupCursor := cursor, cleanupCursorValid := cursor.isSome } xs := by
  have hmove : Move c xs [] { c with
      cleanupCursor := cursor, cleanupCursorValid := cursor.isSome } xs := .cursor cursor hmem
  exact ⟨.of_move hmove, ⟨⟨hmove.listed h.toListed, h.setup, h.memo.congr rfl rfl rfl rfl rfl rfl,
    h.headed⟩, h.parked⟩⟩

theorem point (h : Ready c xs) (visited : ℕ → Bool) (hand : Option ℕ)
    (hmem : ∀ i ∈ hand, i ∈ xs ∧ c.policy = .sieve) :
    Goes c xs [] { c with visited, sieveHand := hand } xs := by
  have hmove : Move c xs [] { c with visited, sieveHand := hand } xs := .hand visited hand hmem
  exact ⟨.of_move hmove, ⟨⟨hmove.listed h.toListed, h.setup, h.memo.congr rfl rfl rfl rfl rfl rfl,
    h.headed⟩, h.parked⟩⟩

theorem write (h : Ready c xs) (hi : i ∈ xs) (hk : c.key i = some k) (value : ℕ → Option V)
    (w x : ℚ) (hw : 0 ≤ w) : Goes c xs [.written k] { c with
      currentWeight := c.currentWeight - c.weight i + w
      value, weight := update c.weight i w
      expiresAt := update c.expiresAt i x } xs := by
  have hmove : Move c xs [.written k] { c with
      currentWeight := c.currentWeight - c.weight i + w
      value, weight := update c.weight i w
      expiresAt := update c.expiresAt i x } xs := .write hi hk value w x hw
  exact ⟨.of_move hmove, ⟨⟨hmove.listed h.toListed, h.setup, h.memo.congr rfl rfl rfl rfl rfl rfl,
    h.headed⟩, h.parked⟩⟩

end Ready

/-! ## Nodes that leave -/

theorem unlinkNode_inWindow {advance : Bool} : (unlinkNode c i advance).inWindow = c.inWindow :=
  remove_inWindow

theorem unlinkNode_windowStartMemo {advance : Bool} : (unlinkNode c i advance).windowStartMemo =
    if c.inWindow i then none else c.windowStartMemo :=
  remove_windowStartMemo

theorem unlinkNode_windowTail {advance : Bool} : (unlinkNode c i advance).windowTail =
    if c.inWindow i then none else c.windowTail :=
  remove_windowTail

theorem Settled.drop {advance : Bool} (h : Settled c (l ++ i :: r)) (cs : Counters)
    (cbs : List (Callback K V)) (hadvance : Steady c.toConfig → advance = true → l = []) :
    Settled (freeNode { unlinkNode c i advance with counters := cs, log := cbs } i) (l ++ r) := by
  have hconfig : (unlinkNode c i advance).toConfig = c.toConfig := unlinkNode_toConfig
  refine ⟨h.toListed.unlinked cs cbs, ?_, ?_, ?_⟩
  · show Setup (unlinkNode c i advance).toConfig
    rw [hconfig]
    exact h.setup
  · exact And.left (h.memo.removed hconfig unlinkNode_inWindow unlinkNode_windowStartMemo
      unlinkNode_windowTail)
  · intro hsteady
    change Steady (unlinkNode c i advance).toConfig at hsteady
    rw [hconfig] at hsteady
    show (unlinkNode c i advance).evictionCandidate = (l ++ r).head?
    rw [unlinkNode_candidate, h.prev_eq, h.linked.detach.head_eq]
    cases l with
    | nil => rfl
    | cons j l =>
      have hadvance' : advance = false := by
        cases advance with
        | false => rfl
        | true => exact absurd (hadvance hsteady rfl) (by simp)
      rw [hadvance']
      simpa using h.headed hsteady

theorem Ready.drop {advance : Bool} (h : Ready c (l ++ i :: r)) (hk : c.key i = some k)
    (cs : Counters) {cb : Callback K V} (hm : m = .removed k ∨ m = .evicted k)
    (hcb : cb.mark = some m) (hfirst : m = .evicted k → InOrder c.toConfig → l = [])
    (hadvance : Steady c.toConfig → advance = true → l = [])
    (hcand : advance = false → c.evictionCandidate = some i → l = []) :
    Goes c (l ++ i :: r) [m]
      (freeNode { unlinkNode c i advance with counters := cs, log := c.log ++ [cb] } i) (l ++ r) :=
  ⟨.of_move (.drop advance cs cb rfl hk hm hcb hfirst),
    ⟨h.toSettled.drop cs _ hadvance, h.toListed.parked_unlinked h.parked hcand⟩⟩

theorem dropNode_eq (c : Cache K V) (i : ℕ) (advance : Bool) (reason : String) : ∃ cs,
    dropNode (unlinkNode c i advance) i reason = freeNode { unlinkNode c i advance with
      counters := cs, log := c.log ++ [.onEvict (c.key i) (c.value i) reason] } i := by
  refine ⟨{ (unlinkNode c i advance).counters with
    evictions := (unlinkNode c i advance).counters.evictions + 1 }, ?_⟩
  simp only [dropNode, unlinkNode_log, unlinkNode_toFields]

theorem removeExpiredNode_eq (c : Cache K V) (i : ℕ) : ∃ cs, removeExpiredNode c i = freeNode { unlinkNode c i false with
    counters := cs, log := c.log ++ [.onExpire (c.key i) (c.value i)] } i := by
  refine ⟨{ (unlinkNode c i false).counters with
    expirations := (unlinkNode c i false).counters.expirations + 1 }, ?_⟩
  simp only [removeExpiredNode, unlinkNode_log]

theorem abortInflight_log {key : Option K} : (abortInflight c key).log = c.log := by
  unfold abortInflight
  split <;> rfl

protected theorem Ready.abortInflight (h : Ready c xs) (key : Option K) :
    Goes c xs [] (abortInflight c key) xs :=
  h.quiet abortInflight_toConfig abortInflight_toFields abortInflight_toHeap
    abortInflight_currentWeight abortInflight_log

namespace Ready

omit [DecidableEq K] in
theorem keyed (h : Ready c xs) (hi : i ∈ xs) : ∃ k, c.key i = some k := h.indexes.keyed i hi

section
variable (h : Ready c (l ++ i :: r)) (hk : c.key i = some k)
include h hk

theorem dropNode {advance : Bool} {reason : String}
    (hm : m = .removed k ∨ m = .evicted k)
    (hreason : (Callback.onEvict (V := V) (some k) (c.value i) reason).mark = some m)
    (hfirst : m = .evicted k → InOrder c.toConfig → l = [])
    (hadvance : Steady c.toConfig → advance = true → l = [])
    (hcand : advance = false → c.evictionCandidate = some i → l = []) :
    Goes c (l ++ i :: r) [m]
      (dropNode (unlinkNode (abortInflight c (c.key i)) i advance) i reason) (l ++ r) := by
  have habort := h.abortInflight (c.key i)
  obtain ⟨cs, hdrop⟩ := dropNode_eq (abortInflight c (c.key i)) i advance reason
  rw [hdrop]
  refine habort.trans (habort.ready.drop (by simpa using hk) cs hm ?_ ?_ ?_ ?_)
  · simpa [hk] using hreason
  · simpa using hfirst
  · simpa using hadvance
  · simpa using hcand

protected theorem evictNode
    (hhead : Steady c.toConfig → l = []) :
    Goes c (l ++ i :: r) [.evicted k] (evictNode c i) (l ++ r) := by
  have hmark : (Callback.onEvict (some k) (c.value i) "evicted").mark = some (.evicted k) := by
    simp [Callback.mark]
  exact h.dropNode hk (Or.inr rfl) hmark (fun _ horder => hhead horder.steady)
    (fun hs _ => hhead hs) (by simp)

theorem removeExpiredNode
    (hcand : c.evictionCandidate = some i → l = []) :
    Goes c (l ++ i :: r) [.removed k] (removeExpiredNode c i) (l ++ r) := by
  obtain ⟨cs, hremove⟩ := removeExpiredNode_eq c i
  rw [hremove]
  exact h.drop hk cs (Or.inl rfl) (by simp [Callback.mark, hk]) (by simp) (by simp) fun _ => hcand

end

end Ready

/-! ## Nodes that are used -/

section
omit [DecidableEq K]

theorem Settled.lru (h : Settled c xs) (hwindow : Windowed c.toConfig) : c.policy = .lru :=
  h.setup.sketch (h.setup.windowed hwindow)

theorem Settled.not_steady (h : Settled c xs) (hwindow : Windowed c.toConfig) :
    ¬Steady c.toConfig := by
  rintro (hsieve | hplain)
  · exact absurd ((h.lru hwindow).symm.trans hsieve) (by simp)
  · exact hplain.2 hwindow

theorem not_pastWindow_iff : ¬PastWindow c i ↔ Windowed c.toConfig ∧ c.inWindow i = false := by
  simp [PastWindow, Windowed]

end

theorem moveToTail_windowStartMemo (hpol : c.policy ≠ .s3fifo) (hwindow : PastWindow c i)
    (hmemo : c.windowStartMemo = none) : (moveToTail c i).windowStartMemo = none := by
  have hremove : (remove c i).windowStartMemo = none := by
    rw [remove_windowStartMemo, hmemo, ite_self]
  cases hp : c.policy with
  | s3fifo => exact absurd hp hpol
  | lru =>
    rw [moveToTail_lru hp hwindow]
    split
    · exact hmemo
    · exact hremove
  | slru =>
    rw [moveToTail_slru hp]
    simp only [protect]
    split
    · exact hmemo
    · exact hremove
  | sieve =>
    rw [moveToTail_sieve hp]
    exact hmemo

/-- A window node that moves is forgotten. -/
theorem Settled.moveToTail_memo (h : Settled c (l ++ i :: r)) (hwindow : PastWindow c i) :
    Memo (moveToTail c i) (usedOrder c.policy l i r) := by
  by_cases hwindowed : Windowed c.toConfig
  · have hpol := h.lru hwindowed
    have hin : c.inWindow i = true := by
      by_contra hin
      exact not_pastWindow_iff.mpr ⟨hwindowed, by simpa using hin⟩ hwindow
    rw [moveToTail_lru hpol hwindow]
    by_cases htail : c.main.tail = some i
    · have hr : r = [] := h.toListed.tail_iff.mp htail
      rw [if_pos htail]
      subst hr
      simpa [usedOrder, hpol] using h.memo
    · rw [if_neg htail]
      apply Memo.of_none
      show (remove c i).windowStartMemo = none
      rw [remove_windowStartMemo, if_pos hin]
  · exact .of_none (moveToTail_windowStartMemo h.policy hwindow (h.memo.none_of hwindowed))

namespace Ready

theorem use (h : Ready c (l ++ i :: r)) (hk : c.key i = some k) :
    ∃ xs', Goes c (l ++ i :: r) [.used k] (moveToTail c i) xs' := by
  by_cases hwindow : PastWindow c i
  · obtain ⟨hlisted, hcand⟩ := h.toListed.moveToTail hwindow
    have hconfig := (moveToTail_frame_list h.policy hwindow).1
    refine ⟨_, .of_move (.use rfl hk hwindow), ⟨⟨hlisted, ?_, h.toSettled.moveToTail_memo hwindow,
      fun hsteady => ?_⟩, h.toListed.parked_moveToTail h.parked hwindow⟩⟩
    · rw [hconfig]
      exact h.setup
    · rw [hconfig] at hsteady
      rw [hcand, h.headed hsteady]
      by_cases hpol : c.policy = .sieve
      · simp [usedOrder, hpol]
      · cases l <;> cases r <;> simp [usedOrder, hpol]
  · -- it stops in front of the window
    obtain ⟨hwindowed, hin⟩ := not_pastWindow_iff.mp hwindow
    have hpol := h.lru hwindowed
    have hmove : moveToTail c i = insertAtMainSpaceMrU (remove c i) i := by
      have hwindowed' : c.windowSize.all (fun n => decide (0 < n)) = true := hwindowed
      simp only [moveToTail, hpol, hwindowed', hin, Bool.not_false, Bool.and_true, if_true]
    obtain ⟨l', r', -, -, -, hstep⟩ :=
      insertAtMainSpaceMrU_stepped h.toListed h.memo.trusted_removed hpol
    rw [hmove]
    refine ⟨l' ++ i :: r', .of_move (.window hwindowed hstep.listed hstep.config
      (congrArg Fields.key hstep.fields) (congrArg Fields.weight hstep.fields) hstep.weight hstep.log
      hstep.perm (by simp)), ⟨⟨hstep.listed, ?_, hstep.memo_of hwindowed, fun hsteady => ?_⟩,
      hstep.parked h.parked⟩⟩
    · rw [hstep.config]
      exact h.setup
    · rw [hstep.config] at hsteady
      exact absurd hsteady (h.not_steady hwindowed)

end Ready

/-! ## Nodes that come in -/

omit [DecidableEq K] in
/-- There is a place for a new node. -/
theorem Listed.exists_place (h : Listed c xs) : ∃ l r, xs = l ++ r ∧ Place c l r := by
  by_cases hpol : c.policy = .slru
  · cases hb : c.probationEnd with
    | none => exact ⟨[], xs, rfl, by simp [Place, hpol, hb]⟩
    | some b =>
      obtain ⟨l, r, rfl⟩ := List.append_of_mem (h.boundary b hb)
      exact ⟨l ++ [b], r, by simp, by simp [Place, hpol, hb]⟩
  · exact ⟨xs, [], (List.append_nil xs).symm, by simp [Place, hpol]⟩

theorem insertNode_window (hpol : c.policy ≠ .s3fifo) :
    (insertNode c k v w x).windowStartMemo = c.windowStartMemo ∧
      (insertNode c k v w x).windowTail = c.windowTail ∧
      (insertNode c k v w x).inWindow = update c.inWindow (takeNode c).2 false ∧
      (insertNode c k v w x).pool = (takeNode c).1.pool ∧
      (insertNode c k v w x).nextNode = (takeNode c).1.nextNode := by
  have htake : (takeNode c).1.windowStartMemo = c.windowStartMemo ∧
      (takeNode c).1.windowTail = c.windowTail ∧ (takeNode c).1.inWindow = c.inWindow := by
    cases hp : c.pool <;> simp only [takeNode, hp, and_self]
  have hpol' : (allocNode c k v w x).1.policy ≠ .s3fifo := by
    rw [allocNode_policy]
    exact hpol
  rw [insertNode_list hpol]
  obtain ⟨links, main, candidate, probationEnd, hand, happend⟩ :=
    append_list (c := { (allocNode c k v w x).1 with
      map := (allocNode c k v w x).1.map.set k (takeNode c).2 }) (i := (takeNode c).2) hpol'
  simp only [happend]
  refine ⟨htake.1, htake.2.1, ?_, rfl, rfl⟩
  rw [← htake.2.2]
  rfl

namespace Ready

protected theorem insertNode (h : Ready c xs) (hw : 0 ≤ w) (hfresh : c.map.get k = none)
    (hwindow : ¬Windowed c.toConfig) :
    ∃ xs', Goes c xs [.inserted k] (insertNode c k v w x) xs' := by
  obtain ⟨l, r, rfl, hplace⟩ := h.toListed.exists_place
  obtain ⟨hlisted, hcand, -⟩ := h.toListed.insertNode (v := v) (w := w) (e := x) hfresh hplace
  have hconfig := (insertNode_frame (c := c) (k := k) (v := v) (w := w) (e := x)).1
  refine ⟨_, .of_move (.insert v w x rfl hw hfresh hplace hwindow), ⟨⟨hlisted, ?_, ?_,
    fun hsteady => ?_⟩, h.toListed.parked_insertNode h.parked hfresh hplace⟩⟩
  · rw [hconfig]
    exact h.setup
  · apply Memo.of_none
    rw [(insertNode_window h.policy).1]
    exact h.memo.none_of hwindow
  · rw [hconfig] at hsteady
    rw [hcand, h.headed hsteady]
    cases l <;> simp

end Ready

def enterWindow (c : Cache K V) (key : K) (value : V) (w expiresAt : ℚ) : Cache K V :=
  let c' := insertNode c key value w expiresAt
  { c' with inWindow := Function.update c'.inWindow (takeNode c).2 true }

theorem insertIntoWindow_eq {sketch : List K → Option K → ℕ} {n : ℕ} (hpol : c.policy = .lru) :
    insertIntoWindow c sketch k v w x n = arbitrateWindow (enterWindow c k v w x) sketch n := by
  have hpol' : (allocNode c k v w x).1.policy = .lru := allocNode_policy.trans hpol
  rw [enterWindow, insertNode_list (by simp [hpol])]
  simp only [insertIntoWindow, append, hpol']
  rfl

theorem enterWindow_listed (h : Ready c xs) (hpol : c.policy = .lru) (hfresh : c.map.get k = none) :
    Listed (enterWindow c k v w x) (xs ++ [(takeNode c).2]) ∧
      Parked (enterWindow c k v w x) (xs ++ [(takeNode c).2]) := by
  have hxs : xs = xs ++ [] := (List.append_nil xs).symm
  have hplace : Place c xs [] := by simp [Place, hpol]
  have hlisted : Listed c (xs ++ []) := hxs ▸ h.toListed
  obtain ⟨hnew, -⟩ := hlisted.insertNode (v := v) (w := w) (e := x) hfresh hplace
  refine ⟨⟨hnew.policy, ⟨hnew.layout.shape.marked _ _ _ _ _ _ _, hnew.layout.weight,
    hnew.layout.ghostWeight⟩, hnew.boundary, hnew.hand⟩, ?_⟩
  exact hlisted.parked_insertNode (hxs ▸ h.parked) hfresh hplace

theorem enterWindow_inWindow (hpol : c.policy = .lru) : (enterWindow c k v w x).inWindow =
    update c.inWindow (takeNode c).2 true := by
  have hin := (insertNode_window (c := c) (k := k) (v := v) (w := w) (x := x) (by simp [hpol])).2.2.1
  simp only [enterWindow, hin, Function.update_idem]

/-- While all entries fit, what the window remembers needs no change. -/
theorem enterWindow_memo (h : Ready c xs) (hpol : c.policy = .lru)
    (hfits : FitsWindow c.toConfig (xs.length + 1)) :
    Memo (enterWindow c k v w x) (xs ++ [(takeNode c).2]) := by
  have hconfig : (enterWindow c k v w x).toConfig = c.toConfig := insertNode_frame.1
  obtain ⟨hmemo, htail, -, hpool, hnext⟩ :=
    insertNode_window (c := c) (k := k) (v := v) (w := w) (x := x) (by simp [hpol])
  have hin := enterWindow_inWindow (c := c) (k := k) (v := v) (w := w) (x := x) hpol
  have hi : (takeNode c).2 ∉ xs :=
    h.layout.shape.takeNode.held_notMem List.mem_cons_self .main
  have hlen : (xs ++ [(takeNode c).2]).length = xs.length + 1 := by simp
  refine ⟨fun hne => ?_, fun m hm => ?_⟩
  · rw [hconfig]
    exact h.memo.windowed fun hnone => hne (hmemo.trans hnone)
  · obtain ⟨t, ht, hl | hs⟩ := h.memo.memo m (hmemo.symm.trans hm)
    · obtain ⟨l, r, hxs, -⟩ := hl.place
      have hmi : m ≠ (takeNode c).2 := fun heq => hi (heq ▸ hl.mem)
      have hti : t ≠ (takeNode c).2 := fun heq => hi (heq ▸ by simp [hxs])
      refine ⟨t, htail.trans ht, Or.inl ⟨List.mem_append_left _ hl.mem, ?_, ?_, l,
        r ++ [(takeNode c).2], by simp [hxs], fun _ => ?_⟩⟩
      · rw [hin, update_of_ne hmi]
        exact hl.memo
      · rw [hin, update_of_ne hti]
        exact hl.tail
      · rw [hconfig, hlen]
        exact hfits
    · refine ⟨t, htail.trans ht, Or.inr ⟨fun j hj => ?_, ?_, ?_, fun a b hab => ?_⟩⟩
      · rw [hin]
        by_cases hji : j = (takeNode c).2
        · rw [hji, Function.update_self]
        · rw [update_of_ne hji]
          exact hs.inWindow j (by simpa [hji] using hj)
      · rw [hconfig, hlen]
        exact hfits
      · have hle : c.nextNode ≤ (takeNode c).1.nextNode := by
          cases hp : c.pool <;> simp [takeNode, hp]
        exact lt_of_lt_of_le hs.bound (hle.trans_eq hnext.symm)
      · rw [hconfig, hlen]
        change (insertNode c k v w x).pool = a ++ t :: b at hab
        rw [hpool] at hab
        cases hp : c.pool with
        | nil => simp [takeNode, hp] at hab
        | cons j pool =>
          simp only [takeNode, hp] at hab
          have hfits' := hs.pool (j :: a) b (by rw [hp, hab]; rfl)
          refine hfits'.mono ?_
          simp only [List.length_cons]
          omega

/-- When the window has to ask, the tail it remembers is not the new node. -/
theorem enterWindow_trusted (h : Ready c xs) (hpol : c.policy = .lru)
    (hfresh : c.map.get k = none) (hfits : ¬FitsWindow c.toConfig (xs.length + 1)) :
    Trusted (enterWindow c k v w x) (xs ++ [(takeNode c).2]) := by
  obtain ⟨hmemo, htail, -, -, -⟩ :=
    insertNode_window (c := c) (k := k) (v := v) (w := w) (x := x) (by simp [hpol])
  have hi : (takeNode c).2 ∉ xs :=
    h.layout.shape.takeNode.held_notMem List.mem_cons_self .main
  intro m hm hend
  have htail' : (enterWindow c k v w x).main.tail = some (takeNode c).2 := by
    rw [(enterWindow_listed h hpol hfresh).1.linked.tail_eq, List.getLast?_concat]
  obtain ⟨t, ht, hcase⟩ := h.memo.memo m (hmemo.symm.trans hm)
  have hti : t = (takeNode c).2 :=
    Option.some.inj (ht.symm.trans (htail.symm.trans (hend.trans htail')))
  exfalso
  rcases hcase with hl | hs
  · obtain ⟨l, r, hxs, -⟩ := hl.place
    exact hi (hti ▸ by simp [hxs])
  · cases hp : c.pool with
    | nil =>
      have hbound := hs.bound
      simp [hti, takeNode, hp] at hbound
    | cons j pool =>
      have htj : t = j := by simpa [takeNode, hp] using hti
      exact hfits (hs.pool [] pool (by rw [hp, htj]; rfl))

/-! ## The window decides -/

namespace Ready

protected theorem promoteFromWindow (h : Ready c (l ++ i :: r)) (hwindow : Windowed c.toConfig) :
    ∃ xs', Goes c (l ++ i :: r) [] (promoteFromWindow c i) xs' := by
  obtain ⟨l', r', -, -, -, hstep⟩ :=
    insertAtMainSpaceMrU_stepped h.toListed h.memo.trusted_removed (h.lru hwindow)
  have hlisted := hstep.listed
  have hlisted' : Listed (promoteFromWindow c i) (l' ++ i :: r') :=
    ⟨hlisted.policy, ⟨hlisted.layout.shape.marked _ _ _ _ _ _ _, hlisted.layout.weight,
      hlisted.layout.ghostWeight⟩, hlisted.boundary, hlisted.hand⟩
  have hconfig : (promoteFromWindow c i).toConfig = c.toConfig := hstep.config
  refine ⟨l' ++ i :: r', .of_move (.window hwindow hlisted' hconfig
    (congrArg Fields.key hstep.fields) (congrArg Fields.weight hstep.fields) hstep.weight hstep.log
    hstep.perm (by simp)), ⟨⟨hlisted', ?_, hstep.memo_out hwindow, fun hsteady => ?_⟩,
    hstep.parked h.parked⟩⟩
  · rw [hconfig]
    exact h.setup
  · rw [hconfig] at hsteady
    exact absurd hsteady (h.not_steady hwindow)

theorem evictByWindow (h : Ready c (l ++ i :: r)) (hk : c.key i = some k)
    (hwindow : Windowed c.toConfig) :
    Goes c (l ++ i :: r) [.evicted k] (evictByWindow c i) (l ++ r) := by
  obtain ⟨cs, hdrop⟩ := dropNode_eq c i true "evicted"
  rw [PowerCache.evictByWindow, hdrop]
  refine h.drop hk cs (Or.inr rfl) (by simp [Callback.mark, hk])
    (fun _ horder => absurd hwindow horder.2.2)
    (fun hsteady => absurd hsteady (h.not_steady hwindow)) (by simp)

omit [DecidableEq K] in
theorem keyed_split (h : Ready c xs) (hi : i ∈ xs) :
    ∃ l r k, xs = l ++ i :: r ∧ c.key i = some k := by
  obtain ⟨l, r, hxs⟩ := List.append_of_mem hi
  obtain ⟨k, hk⟩ := h.keyed hi
  exact ⟨l, r, k, hxs, hk⟩

theorem arbitrate (h : Ready c xs) (sketch : List K → Option K → ℕ) (n : ℕ)
    (hwindow : Windowed c.toConfig) (hsize : ¬FitsWindow c.toConfig xs.length)
    (hold : windowOldest c = (c, some i)) (hi : i ∈ xs) :
    ∃ ms xs', Goes c xs ms (arbitrateWindow c sketch n) xs' ∧ ∀ m ∈ ms, ∃ k, m = .evicted k := by
  have hsize' : ¬(c.windowSize.all fun s => decide ((c.map.size : ℤ) ≤ s)) = true := by
    rw [h.size_eq]
    exact hsize
  obtain ⟨l, r, k, rfl, hk⟩ := h.keyed_split hi
  have hpromote := h.promoteFromWindow hwindow
  simp only [arbitrateWindow, if_neg hsize', hold, windowVictim, Option.bind_some]
  cases hv : (if c.main.head = some i then none else c.links.prev i) with
  | none =>
    obtain ⟨xs', hgoes⟩ := hpromote
    exact ⟨[], xs', hgoes, by simp⟩
  | some j =>
    have hprev : c.links.prev i = some j := by
      split at hv
      · cases hv
      · exact hv
    have hl : l.getLast? = some j := by rw [← h.prev_eq, hprev]
    obtain ⟨l, rfl⟩ := List.getLast?_eq_some_iff.mp hl
    simp only []
    split
    · split
      · -- the node in front of the window goes
        obtain ⟨k', hk'⟩ := h.keyed (i := j) (by simp)
        have hxs : l ++ [j] ++ i :: r = l ++ j :: i :: r := by simp
        rw [hxs] at h ⊢
        have hevict := h.evictByWindow hk' hwindow
        have hconfig := hevict.moves.config h.toListed
        obtain ⟨xs', hgoes⟩ := hevict.ready.promoteFromWindow (by rw [hconfig]; exact hwindow)
        exact ⟨_, xs', hevict.trans hgoes, by simp⟩
      · -- the oldest node of the window goes
        have hcount : Goes c _ [] { c with counters := { c.counters with
            rejectedAdmission := c.counters.rejectedAdmission + 1 } } _ :=
          h.quiet rfl rfl rfl rfl rfl
        exact ⟨_, _, hcount.trans (hcount.ready.evictByWindow hk hwindow), by simp⟩
    · obtain ⟨xs', hgoes⟩ := hpromote
      exact ⟨[], xs', hgoes, by simp⟩

theorem insertIntoWindow {sketch : List K → Option K → ℕ} {n : ℕ} (h : Ready c xs) (hw : 0 ≤ w)
    (hwindow : Windowed c.toConfig) (hfresh : c.map.get k = none) :
    ∃ ms xs', Goes c xs (.inserted k :: ms) (insertIntoWindow c sketch k v w x n) xs' ∧
      ∀ m ∈ ms, ∃ k, m = .evicted k := by
  have hpol := h.lru hwindow
  obtain ⟨hlisted, hparked⟩ := enterWindow_listed (v := v) (w := w) (x := x) h hpol hfresh
  have hconfig : (enterWindow c k v w x).toConfig = c.toConfig := insertNode_frame.1
  have hlog : (enterWindow c k v w x).log = c.log := insertNode_log h.policy
  have hlen : (xs ++ [(takeNode c).2]).length = xs.length + 1 := by simp
  have hweights : (∀ i, 0 ≤ c.weight i) → ∀ i, 0 ≤ (enterWindow c k v w x).weight i :=
    insertNode_weights hw
  rw [insertIntoWindow_eq hpol]
  by_cases hfits : FitsWindow c.toConfig (xs.length + 1)
  · have hsame : arbitrateWindow (enterWindow c k v w x) sketch n = enterWindow c k v w x := by
      refine if_pos ?_
      rw [hlisted.size_eq, hconfig, hlen]
      exact hfits
    have hmove : Move c xs [.inserted k] (enterWindow c k v w x) (xs ++ [(takeNode c).2]) :=
      .enter hwindow hlisted hconfig hlog hweights
    rw [hsame]
    refine ⟨[], _, ⟨.of_move hmove, ⟨⟨hlisted, ?_, enterWindow_memo h hpol hfits,
      fun hsteady => ?_⟩, hparked⟩⟩, by simp⟩
    · rw [hconfig]
      exact h.setup
    · rw [hconfig] at hsteady
      exact absurd hsteady (h.not_steady hwindow)
  · have htrusted := enterWindow_trusted (v := v) (w := w) (x := x) h hpol hfresh hfits
    obtain ⟨o, hold, ho⟩ := windowOldest_eq hlisted.linked hlisted.length_le htrusted
    have htail : (enterWindow c k v w x).main.tail = (xs ++ [(takeNode c).2]).getLast? :=
      hlisted.linked.tail_eq
    obtain ⟨c₂, hc₂⟩ : ∃ c₂ : Cache K V, c₂ = { enterWindow c k v w x with
        windowStartMemo := o, windowTail := (enterWindow c k v w x).main.tail } := ⟨_, rfl⟩
    have hconfig₂ : c₂.toConfig = c.toConfig := by rw [hc₂]; exact hconfig
    have hlisted₂ : Listed c₂ (xs ++ [(takeNode c).2]) := by
      rw [hc₂]
      exact ⟨hlisted.policy, ⟨hlisted.layout.shape.marked _ _ _ _ _ _ _, hlisted.layout.weight,
        hlisted.layout.ghostWeight⟩, hlisted.boundary, hlisted.hand⟩
    have hmove : Move c xs [.inserted k] c₂ (xs ++ [(takeNode c).2]) :=
      .enter hwindow hlisted₂ hconfig₂ (by rw [hc₂]; exact hlog) (by rw [hc₂]; exact hweights)
    have hwindow₂ : Windowed c₂.toConfig := by rw [hconfig₂]; exact hwindow
    have hready : Ready c₂ (xs ++ [(takeNode c).2]) := by
      refine ⟨⟨hlisted₂, ?_, .of_walk hwindow₂ ?_ fun m hm => ?_, fun hsteady => ?_⟩, ?_⟩
      · rw [hconfig₂]
        exact h.setup
      · rw [hc₂]
        exact htail
      · rw [hc₂] at hm ⊢
        rw [htail] at ho
        exact ho m hm
      · rw [hconfig₂] at hsteady
        exact absurd hsteady (h.not_steady hwindow)
      · rw [hc₂]
        exact hparked
    have henter : Goes c xs [.inserted k] c₂ (xs ++ [(takeNode c).2]) := ⟨.of_move hmove, hready⟩
    have hold₂ : windowOldest c₂ = (c₂, o) := by
      have hidem := windowOldest_idem (c := enterWindow c k v w x)
      rw [hold] at hidem
      rw [hc₂]
      exact hidem
    have harbitrate : arbitrateWindow (enterWindow c k v w x) sketch n =
        arbitrateWindow c₂ sketch n := by
      have hsize : ∀ c' : Cache K V, Listed c' (xs ++ [(takeNode c).2]) →
          c'.toConfig = c.toConfig →
          ¬(c'.windowSize.all fun s => decide ((c'.map.size : ℤ) ≤ s)) = true := by
        intro c' hc' hconfig'
        rw [hc'.size_eq, hconfig', hlen]
        exact hfits
      rw [← hc₂] at hold
      simp only [arbitrateWindow, if_neg (hsize _ hlisted hconfig),
        if_neg (hsize _ hlisted₂ hconfig₂), hold, hold₂]
    rw [harbitrate]
    cases o with
    | none =>
      have hsame : arbitrateWindow c₂ sketch n = c₂ := by
        simp only [arbitrateWindow, hold₂, ite_self]
      rw [hsame]
      exact ⟨[], _, henter, by simp⟩
    | some i =>
      obtain ⟨ms, xs', hgoes, hms⟩ := hready.arbitrate sketch n hwindow₂
        (by rw [hconfig₂, hlen]; exact hfits) hold₂ (ho i rfl).1
      exact ⟨ms, xs', henter.trans hgoes, hms⟩

end Ready

end

end PerformanceHelpers.PowerCache
