import PerformanceHelpers.PowerCache.Lists

/- The admission window of an LRU list with a sketch.

   The window is a run of nodes that ends at the tail. `_windowOldest` walks back
   over it, and remembers where it stopped and the tail it started from; the two are
   not kept up to date, and trusted while the tail is the same. `Memo` says what they
   may be: nodes of the window, or two nodes from before a `clear`. Those can become
   nodes again, but the tail it remembers is the tail again only while the list fits the
   window, and then nothing is asked. -/
namespace PerformanceHelpers.PowerCache

variable {K V : Type} {c c' : Cache K V} {xs l r : List ℕ} {i m t : ℕ}

/-- There is an admission window. -/
def Windowed (c : Config K V) : Prop := c.windowSize.all (fun n => decide (0 < n)) = true

def FitsWindow (c : Config K V) (n : ℕ) : Prop :=
  c.windowSize.all (fun s => decide ((n : ℤ) ≤ s)) = true

instance (c : Config K V) : Decidable (Windowed c) := inferInstanceAs (Decidable (_ = _))

instance (c : Config K V) (n : ℕ) : Decidable (FitsWindow c n) :=
  inferInstanceAs (Decidable (_ = _))

theorem FitsWindow.mono {c : Config K V} {n n' : ℕ} (h : FitsWindow c n) (hn : n' ≤ n) :
    FitsWindow c n' := by
  unfold FitsWindow at *
  cases hs : c.windowSize with
  | none => rfl
  | some s =>
    rw [hs, Option.all_some, decide_eq_true_eq] at h
    rw [Option.all_some, decide_eq_true_eq]
    omega

theorem Windowed.fits_one {c : Config K V} (h : Windowed c) : FitsWindow c 1 := by
  unfold Windowed FitsWindow at *
  cases hs : c.windowSize with
  | none => rfl
  | some s =>
    rw [hs, Option.all_some, decide_eq_true_eq] at h
    rw [Option.all_some, decide_eq_true_eq]
    omega

/-- What is remembered is in the window: the tail may have moved on while all entries fit. -/
structure Live (c : Cache K V) (xs : List ℕ) (m t : ℕ) : Prop where
  mem : m ∈ xs
  memo : c.inWindow m
  tail : c.inWindow t
  place : ∃ l r, xs = l ++ t :: r ∧ (r ≠ [] → FitsWindow c.toConfig xs.length)

/-- It is from before a `clear`, and no entry has left its place since. -/
structure Stale (c : Cache K V) (xs : List ℕ) (t : ℕ) : Prop where
  inWindow : ∀ j ∈ xs, c.inWindow j
  fits : FitsWindow c.toConfig xs.length
  bound : t < c.nextNode
  pool : ∀ a b, c.pool = a ++ t :: b → FitsWindow c.toConfig (xs.length + a.length + 1)

/-- What `_windowStartMemo` and `_windowTail` may be. -/
structure Memo (c : Cache K V) (xs : List ℕ) : Prop where
  windowed : c.windowStartMemo ≠ none → Windowed c.toConfig
  memo : ∀ m, c.windowStartMemo = some m →
    ∃ t, c.windowTail = some t ∧ (Live c xs m t ∨ Stale c xs t)

def Trusted (c : Cache K V) (xs : List ℕ) : Prop :=
  ∀ m, c.windowStartMemo = some m → c.windowTail = c.main.tail →
    m ∈ xs ∧ c.inWindow m ∧ ∀ t ∈ c.main.tail, c.inWindow t

theorem Memo.of_none (h : c.windowStartMemo = none) : Memo c xs :=
  ⟨fun hne => absurd h hne, fun m hm => by rw [h] at hm; cases hm⟩

theorem Memo.none_of (h : Memo c xs) (hwindow : ¬Windowed c.toConfig) :
    c.windowStartMemo = none := by
  by_contra hne
  exact hwindow (h.windowed hne)

theorem Trusted.of_none (h : c.windowStartMemo = none) : Trusted c xs := by
  intro m hm
  rw [h] at hm
  cases hm

theorem Live.trusted (h : Live c xs m t) (hm : c.windowStartMemo = some m)
    (ht : c.windowTail = some t) : Trusted c xs := by
  intro m' hm' htail
  obtain rfl : m' = m := Option.some.inj (hm'.symm.trans hm)
  refine ⟨h.mem, h.memo, fun t' ht' => ?_⟩
  obtain rfl : t' = t := Option.some.inj (ht'.symm.trans (htail.symm.trans ht))
  exact h.tail

/-- It depends on the marks, the memo and the pool. -/
theorem Memo.congr (h : Memo c xs) (hconfig : c'.toConfig = c.toConfig)
    (hin : c'.inWindow = c.inWindow) (hmemo : c'.windowStartMemo = c.windowStartMemo)
    (htail : c'.windowTail = c.windowTail) (hnext : c'.nextNode = c.nextNode)
    (hpool : c'.pool = c.pool) : Memo c' xs := by
  refine ⟨fun hne => ?_, fun m hm => ?_⟩
  · rw [hconfig]
    exact h.windowed (hmemo ▸ hne)
  · obtain ⟨t, ht, hcase⟩ := h.memo m (hmemo ▸ hm)
    refine ⟨t, htail.trans ht, hcase.imp (fun hl => ?_) fun hs => ?_⟩
    · refine ⟨hl.mem, ?_, ?_, ?_⟩
      · rw [hin]
        exact hl.memo
      · rw [hin]
        exact hl.tail
      · rw [hconfig]
        exact hl.place
    · refine ⟨?_, ?_, ?_, ?_⟩
      · rw [hin]
        exact hs.inWindow
      · rw [hconfig]
        exact hs.fits
      · rw [hnext]
        exact hs.bound
      · rw [hpool, hconfig]
        exact hs.pool

/-- A node that goes takes the memory of the window with it, if it was in it. -/
theorem Memo.removed (h : Memo c (l ++ i :: r)) (hconfig : c'.toConfig = c.toConfig)
    (hin : c'.inWindow = c.inWindow)
    (hmemo : c'.windowStartMemo = if c.inWindow i then none else c.windowStartMemo)
    (htail : c'.windowTail = if c.inWindow i then none else c.windowTail) :
    Memo c' (l ++ r) ∧ Trusted c' (l ++ r) := by
  by_cases hi : c.inWindow i
  · rw [if_pos hi] at hmemo
    exact ⟨.of_none hmemo, .of_none hmemo⟩
  · rw [if_neg hi] at hmemo htail
    have hlive : ∀ m, c'.windowStartMemo = some m →
        ∃ t, c'.windowTail = some t ∧ Live c' (l ++ r) m t := by
      intro m hm
      obtain ⟨t, ht, hl | hs⟩ := h.memo m (hmemo ▸ hm)
      · have hmi : m ≠ i := by
          rintro rfl
          exact hi hl.memo
        have hti : t ≠ i := by
          rintro rfl
          exact hi hl.tail
        have hmem := hl.mem
        obtain ⟨l', r', hxs, hfits⟩ := hl.place
        refine ⟨t, htail.trans ht, ?_, ?_, ?_, ?_⟩
        · simpa [hmi] using hmem
        · rw [hin]
          exact hl.memo
        · rw [hin]
          exact hl.tail
        · rw [hconfig]
          have hlen : (l ++ r).length + 1 = (l ++ i :: r).length := by simp; omega
          rcases List.append_eq_append_iff.mp hxs with ⟨as, rfl, has⟩ | ⟨bs, rfl, hbs⟩
          · -- `t` is behind `i`
            cases as with
            | nil =>
              rw [List.nil_append] at has
              exact absurd (List.cons.inj has).1.symm hti
            | cons a as =>
              obtain ⟨rfl, rfl⟩ := List.cons.inj has
              refine ⟨l ++ as, r', by simp, fun hr => ?_⟩
              exact (hfits hr).mono (by omega)
          · cases bs with
            | nil =>
              rw [List.nil_append] at hbs
              exact absurd (List.cons.inj hbs).1 hti
            | cons b bs =>
              obtain ⟨rfl, rfl⟩ := List.cons.inj hbs
              refine ⟨l', bs ++ r, by simp, fun _ => ?_⟩
              exact (hfits (by simp)).mono (by omega)
      · exact absurd (hs.inWindow i (by simp)) hi
    refine ⟨⟨fun hne => ?_, fun m hm => ?_⟩, fun m hm => ?_⟩
    · rw [hconfig]
      exact h.windowed (hmemo ▸ hne)
    · obtain ⟨t, ht, hl⟩ := hlive m hm
      exact ⟨t, ht, Or.inl hl⟩
    · obtain ⟨t, ht, hl⟩ := hlive m hm
      exact hl.trusted hm ht m hm

/-! ## The window's oldest node -/

/-- It trusts what it remembers, or walks and remembers that. -/
theorem windowOldest_cases (c : Cache K V) :
    (∃ m, c.windowStartMemo = some m ∧ c.windowTail = c.main.tail ∧ windowOldest c = (c, some m)) ∨
      windowOldest c = ({ c with
        windowStartMemo := ((walk c.links.prev c.nextNode c.main.tail).takeWhile c.inWindow).getLast?
        windowTail := c.main.tail },
        ((walk c.links.prev c.nextNode c.main.tail).takeWhile c.inWindow).getLast?) := by
  unfold windowOldest
  split
  · next m hmemo =>
    rw [Option.filter_eq_some_iff, Bool.and_eq_true, beq_iff_eq] at hmemo
    exact Or.inl ⟨m, hmemo.1, hmemo.2.2, rfl⟩
  · exact Or.inr rfl

theorem windowOldest_idem : windowOldest (windowOldest c).1 = windowOldest c := by
  rcases windowOldest_cases c with ⟨m, -, -, h⟩ | h
  · rw [h]
    exact h
  · rcases windowOldest_cases (windowOldest c).1 with ⟨m, hm, -, h'⟩ | h'
    · rw [h', h]
      rw [h] at hm
      rw [← hm]
    · rw [h', h]

/-- It remembers what it answers, with the tail as it is. -/
theorem windowOldest_eq (hlinked : Linked c.links c.main xs) (hlen : xs.length ≤ c.nextNode)
    (htrusted : Trusted c xs) : ∃ o, windowOldest c =
      ({ c with windowStartMemo := o, windowTail := c.main.tail }, o) ∧
      ∀ m ∈ o, m ∈ xs ∧ c.inWindow m ∧ ∀ t ∈ c.main.tail, c.inWindow t := by
  rcases windowOldest_cases c with ⟨m, hm, htail, h⟩ | h
  · have hsame : { c with windowStartMemo := some m, windowTail := c.main.tail } = c := by
      rw [← htail, ← hm]
    refine ⟨some m, by rw [h, hsame], fun m' hm' => ?_⟩
    obtain rfl : m = m' := Option.some.inj hm'
    exact htrusted m hm htail
  · refine ⟨_, h, fun m hm => ?_⟩
    rw [hlinked.walk_prev hlen] at hm
    have hmem := List.mem_of_getLast? hm
    refine ⟨?_, List.mem_takeWhile_imp hmem, fun t ht => ?_⟩
    · simpa using (List.takeWhile_sublist _).subset hmem
    · rw [Option.mem_def, hlinked.tail_eq] at ht
      obtain ⟨ys, rfl⟩ := List.getLast?_eq_some_iff.mp ht
      rw [List.reverse_append, List.reverse_singleton, List.singleton_append] at hmem
      by_contra hwindow
      rw [List.takeWhile_cons_of_neg hwindow] at hmem
      cases hmem

/-- Right after the walk, what is remembered is in the window. -/
theorem Memo.of_walk (hwindow : Windowed c.toConfig) (htail : c.windowTail = xs.getLast?)
    (h : ∀ m, c.windowStartMemo = some m →
      m ∈ xs ∧ c.inWindow m ∧ ∀ t ∈ xs.getLast?, c.inWindow t) : Memo c xs := by
  refine ⟨fun _ => hwindow, fun m hm => ?_⟩
  obtain ⟨hmem, hin, htin⟩ := h m hm
  obtain ⟨ys, t, rfl⟩ := (List.eq_nil_or_concat' xs).resolve_left (List.ne_nil_of_mem hmem)
  rw [List.getLast?_concat] at htail htin
  exact ⟨t, htail, Or.inl ⟨hmem, hin, htin t rfl, ys, [], rfl, fun h => absurd rfl h⟩⟩

/-! ## In front of the window -/

section
variable [DecidableEq K]

theorem insertAtMainSpaceMrU_eq (hpol : c.policy = .lru)
    (h : Chains c.links c.toHeap.ends (onlyMain xs)) (hi : ∀ q, i ∉ onlyMain xs q)
    (hprev : c.links.prev i = none) (hlen : xs.length ≤ c.nextNode) (htrusted : Trusted c xs) :
    ∃ l r links main o, xs = l ++ r ∧ (windowOldest c).2 = o ∧ r.head? = o ∧
      insertAtMainSpaceMrU c i = { c with
        links, main, evictionCandidate := if l = [] then some i else c.evictionCandidate
        windowStartMemo := o, windowTail := c.main.tail } ∧
      Chains links (Function.update c.toHeap.ends .main main) (onlyMain (l ++ i :: r)) ∧
      ∀ m ∈ o, m ∈ xs ∧ c.inWindow m ∧ r ≠ [] ∧ ∀ t ∈ c.main.tail, c.inWindow t := by
  have hlinked : Linked c.links c.main xs := h.linked .main
  obtain ⟨o, hold, ho⟩ := windowOldest_eq hlinked hlen htrusted
  cases o with
  | none =>
    have hattached := h.attach hi hprev Queue.main
    rw [onlyMain_update] at hattached
    refine ⟨xs, [], _, _, none, (List.append_nil xs).symm, by rw [hold], rfl, ?_, hattached, by simp⟩
    simp only [insertAtMainSpaceMrU, hold, appendList, hpol, reduceCtorEq, and_false, if_false,
      hlinked.tail_none_iff]
    rfl
  | some start =>
    obtain ⟨hmem, hin, htin⟩ := ho start rfl
    obtain ⟨l, r, rfl⟩ := List.append_of_mem hmem
    have hp : c.links.prev start = l.getLast? := (hlinked.links l start r rfl).1
    have hends : (if l = [] then { c.main with head := some i } else c.main) =
        ⟨(l ++ i :: start :: r).head?, (l ++ i :: start :: r).getLast?⟩ := by
      have hhead := hlinked.head_eq
      have htail := hlinked.tail_eq
      ext1
      · cases l with
        | nil => rfl
        | cons j l => simpa using hhead
      · have hlast : (l ++ i :: start :: r).getLast? = (l ++ start :: r).getLast? := by
          rw [List.getLast?_append_of_ne_nil _ (List.cons_ne_nil _ _),
            List.getLast?_append_of_ne_nil _ (List.cons_ne_nil _ _), List.getLast?_cons_cons]
        rw [hlast]
        cases l <;> exact htail
    have hnew := h.insertBetween (k := Queue.main) (i := i) (l := l) (r := start :: r)
      ⟨(l ++ i :: start :: r).head?, (l ++ i :: start :: r).getLast?⟩ hi rfl rfl rfl
    rw [onlyMain_update, ← hends] at hnew
    refine ⟨l, start :: r, _, _, some start, rfl, by rw [hold], rfl, ?_, hnew, ?_⟩
    · simp only [insertAtMainSpaceMrU, hold, hp, List.getLast?_eq_none_iff, List.head?_cons]
    · intro m hm
      obtain rfl : start = m := Option.some.inj hm
      exact ⟨hmem, hin, by simp, htin⟩

theorem remove_inWindow : (remove c i).inWindow = c.inWindow := by
  cases hp : c.policy <;> cases hq : c.queue i <;> simp only [remove, hp, hq] <;> rfl

theorem remove_windowStartMemo :
    (remove c i).windowStartMemo = if c.inWindow i then none else c.windowStartMemo := by
  cases hp : c.policy <;> cases hq : c.queue i <;> simp only [remove, hp, hq] <;> rfl

theorem remove_windowTail :
    (remove c i).windowTail = if c.inWindow i then none else c.windowTail := by
  cases hp : c.policy <;> cases hq : c.queue i <;> simp only [remove, hp, hq] <;> rfl

/-- From `c` to `c'` the node `i` was put in front of the window. -/
structure Stepped (c c' : Cache K V) (i : ℕ) (xs xs' : List ℕ) : Prop where
  config : c'.toConfig = c.toConfig
  fields : c'.toFields = c.toFields
  weight : c'.currentWeight = c.currentWeight
  log : c'.log = c.log
  inWindow : c'.inWindow = c.inWindow
  perm : xs'.Perm xs
  listed : Listed c' xs'
  parked : Parked c xs → Parked c' xs'
  windowTail : c'.windowStartMemo ≠ none → c'.windowTail = xs'.getLast?
  memo : ∀ m, c'.windowStartMemo = some m →
    m ≠ i ∧ m ∈ xs' ∧ c.inWindow m ∧ ∀ t ∈ xs'.getLast?, t ≠ i ∧ c.inWindow t

theorem insertAtMainSpaceMrU_stepped (h : Listed c (l ++ i :: r))
    (htrusted : Trusted (remove c i) (l ++ r)) (hpol : c.policy = .lru) :
    ∃ l' r', l ++ r = l' ++ r' ∧ r'.head? = (windowOldest (remove c i)).2 ∧
      (insertAtMainSpaceMrU (remove c i) i).windowStartMemo = r'.head? ∧
      Stepped c (insertAtMainSpaceMrU (remove c i) i) i (l ++ i :: r) (l' ++ i :: r') := by
  have hqueue : c.queue i = .main := h.queue (by simp)
  obtain ⟨hchains, hi, hprev⟩ := h.layout.shape.chains_removed (l := l) (i := i) (r := r) rfl
  rw [onlyMain_update] at hchains hi
  have hkept := kept_remove (c := c) hqueue
  obtain ⟨-, hcand, hbound⟩ := h.remove
  have hin : (remove c i).inWindow = c.inWindow := remove_inWindow
  have hlen : (l ++ r).length ≤ (remove c i).nextNode := by
    have hlen := h.length_le
    rw [hkept.nextNode]
    simp only [List.length_append, List.length_cons] at hlen ⊢
    omega
  obtain ⟨l', r', links, main, o, hxs, hold, hr', heq, hnew, ho⟩ :=
    insertAtMainSpaceMrU_eq (by rw [remove_toConfig]; exact hpol) hchains hi hprev hlen htrusted
  have hperm : (l' ++ i :: r').Perm (l ++ i :: r) := by
    have hcons : (l' ++ i :: r').Perm (i :: (l ++ r)) := by
      rw [hxs]
      exact List.perm_middle
    exact hcons.trans List.perm_middle.symm
  have hmem : ∀ j ∈ l ++ i :: r, j ∈ l' ++ i :: r' := fun j hj => hperm.mem_iff.mpr hj
  have hlog : (remove c i).log = c.log := by
    rw [remove_main hqueue]
  have hhand : (remove c i).sieveHand = none := by
    rw [remove_main hqueue]
    cases hs : c.sieveHand with
    | none => simp
    | some j => exact absurd (hpol.symm.trans (h.hand j hs).2) (by simp)
  rw [heq]
  have hlayout : Layout { remove c i with
      links, main, evictionCandidate := if l' = [] then some i else (remove c i).evictionCandidate
      windowStartMemo := o, windowTail := (remove c i).main.tail }
      (Function.update (onlyMain (l ++ i :: r)) .main (l' ++ i :: r')) := by
    refine h.layout.reordered remove_toFields remove_currentWeight (hkept.trans ?_) hperm ?_
    · exact ⟨by funext q; cases q <;> rfl, rfl, rfl, rfl, rfl, rfl, rfl, rfl⟩
    · rw [onlyMain_update]
      have hends : (Heap.ends { (remove c i).toHeap with
          links, main, evictionCandidate := if l' = [] then some i else (remove c i).evictionCandidate
          windowStartMemo := o, windowTail := (remove c i).main.tail }) =
          Function.update (remove c i).toHeap.ends .main main := by
        funext q
        cases q <;> rfl
      rw [hends]
      exact hnew
  rw [onlyMain_update] at hlayout
  have htail : (remove c i).main.tail = (l ++ r).getLast? := (hchains.linked .main).tail_eq
  have hlast : r' ≠ [] → (l' ++ i :: r').getLast? = (remove c i).main.tail := by
    intro hr
    rw [htail, hxs,
      List.getLast?_append_of_ne_nil _ (List.cons_ne_nil _ _), List.getLast?_append_of_ne_nil _ hr]
    cases r' with
    | nil => exact absurd rfl hr
    | cons j r' => rw [List.getLast?_cons_cons]
  refine ⟨l', r', hxs, hr'.trans hold.symm, hr'.symm, remove_toConfig, remove_toFields,
    remove_currentWeight, hlog, hin, hperm, ⟨?_, hlayout, ?_, ?_⟩, ?_, ?_, ?_⟩
  · show (remove c i).policy ≠ .s3fifo
    rw [remove_toConfig]
    exact h.policy
  · intro j hj
    change (remove c i).probationEnd = some j at hj
    rw [hbound] at hj
    split at hj
    · exact hmem j (List.mem_append_left _ (List.mem_of_getLast? hj))
    · exact hmem j (h.boundary j hj)
  · intro j hj
    change (remove c i).sieveHand = some j at hj
    rw [hhand] at hj
    cases hj
  · intro hparked j hj
    change (if l' = [] then some i else (remove c i).evictionCandidate) = some j at hj
    split at hj
    · cases hj
      simp
    · rw [hcand] at hj
      split at hj
      · exact hmem j (by simp [List.mem_of_head? hj])
      · exact hmem j (hparked j hj)
  · intro hne
    obtain ⟨m, hm⟩ := Option.ne_none_iff_exists'.mp hne
    exact (hlast (ho m hm).2.2.1).symm
  · intro m hm
    obtain ⟨hmem', hin', hr, htin⟩ := ho m hm
    rw [hin] at hin' htin
    have hfresh : i ∉ l ++ r := hi .main
    refine ⟨fun heq => hfresh (heq ▸ hmem'), ?_, hin', fun t ht => ?_⟩
    · rw [hxs] at hmem'
      rcases List.mem_append.mp hmem' with hm' | hm' <;> simp [hm']
    · rw [hlast hr] at ht
      refine ⟨fun heq => hfresh (heq ▸ ?_), htin t ht⟩
      rw [Option.mem_def, htail] at ht
      exact List.mem_of_getLast? ht

/-- What is remembered may be trusted once the node is taken out. -/
theorem Memo.trusted_removed (h : Memo c (l ++ i :: r)) : Trusted (remove c i) (l ++ r) :=
  (h.removed remove_toConfig remove_inWindow remove_windowStartMemo remove_windowTail).2

theorem Stepped.memo_of {xs' : List ℕ} (h : Stepped c c' i xs xs') (hwindow : Windowed c.toConfig) :
    Memo c' xs' := by
  by_cases hne : c'.windowStartMemo = none
  · exact .of_none hne
  · refine .of_walk ?_ (h.windowTail hne) fun m hm => ?_
    · rw [h.config]
      exact hwindow
    · obtain ⟨-, hmem, hin, htin⟩ := h.memo m hm
      rw [h.inWindow]
      exact ⟨hmem, hin, fun t ht => (htin t ht).2⟩

/-- It may leave the window as it goes. -/
theorem Stepped.memo_out {xs' : List ℕ} (h : Stepped c c' i xs xs') (hwindow : Windowed c.toConfig) :
    Memo { c' with inWindow := Function.update c'.inWindow i false } xs' := by
  by_cases hne : c'.windowStartMemo = none
  · exact .of_none hne
  · refine .of_walk ?_ (h.windowTail hne) fun m hm => ?_
    · show Windowed c'.toConfig
      rw [h.config]
      exact hwindow
    · obtain ⟨hmi, hmem, hin, htin⟩ := h.memo m hm
      simp only [h.inWindow, Function.update_of_ne hmi]
      refine ⟨hmem, hin, fun t ht => ?_⟩
      rw [Function.update_of_ne (htin t ht).1]
      exact (htin t ht).2

end

end PerformanceHelpers.PowerCache
