import PerformanceHelpers.PowerCache.Removals

/- Walks with deletions in between: `entries`.

   A walk of one list saves the next link and the two ends before it yields, and looks at
   them again once the loop body is done. `order` turns the list into the one the walk goes
   along, so that both directions are one argument. A node that has gone has no links, and
   is told from a lone one by the ends that were saved: the last node of a walk is taken for
   linked after it has gone. -/
namespace PerformanceHelpers.PowerCache

variable {K V : Type} {c c' : Cache K V} {xs a b r : List ℕ} {i j : ℕ} {order : Order}

/-! ## The generator -/

/-- `order === 'MRU' ? q.tail() : q.head()`. -/
def walkStart (c : Cache K V) (order : Order) : Option ℕ :=
  match order with
  | .mru => c.main.tail
  | .lru => c.main.head

/-- `node[link]`. -/
def walkLink (c : Cache K V) (order : Order) (node : ℕ) : Option ℕ :=
  match order with
  | .mru => c.links.prev node
  | .lru => c.links.next node

/-- Where the walk goes on after a `yield`: `next` and the ends were saved before it. -/
def resume (c : Cache K V) (order : Order) (node : ℕ) (next : Option ℕ) (ends : Ends ℕ) : Option ℕ :=
  if !isLinked c (some node) ends then
    if isLinked c next ends then next else none
  else if isLinked c next ends then next
  else walkLink c order node

structure Yield (K V : Type) where
  key : Option K
  value : Option V
  live : Bool
  deriving DecidableEq

variable [DecidableEq K]

def live (c : Cache K V) (i : ℕ) : Bool := (c.key i).bind c.map.get == some i

def deleteOne (c : Cache K V) (key : Option K) : Cache K V := key.elim c fun k => (delete c k).1

/-- The loop of the generator: the body deletes `deletes t` after the `t`-th `yield`. -/
def walkLoop (order : Order) (deletes : ℕ → Option K) :
    ℕ → ℕ → Option ℕ → Cache K V → List (Yield K V)
  | 0, _, _, _ => []
  | _ + 1, _, none, _ => []
  | budget + 1, t, some node, c =>
    let next := walkLink c order node
    let c' := deleteOne c (deletes t)
    ⟨c.key node, c.value node, live c node⟩ ::
      walkLoop order deletes budget (t + 1) (resume c' order node next c.main) c'

/-- `entries(order)` of a cache of one list. -/
def walkEntries (c : Cache K V) (order : Order) (deletes : ℕ → Option K) : List (Yield K V) :=
  walkLoop order deletes c.map.size 0 (walkStart c order) c

/-! ## What it should yield -/

/-- The list in the order of a walk. -/
def Order.list (order : Order) (xs : List ℕ) : List ℕ :=
  match order with
  | .mru => xs.reverse
  | .lru => xs

/-- Each entry of the list in turn, unless it was deleted by then. -/
def expected (c : Cache K V) (deletes : ℕ → Option K) : ℕ → List (Option K) → List ℕ →
    List (Yield K V)
  | _, _, [] => []
  | t, gone, i :: r =>
    if c.key i ∈ gone then expected c deletes t gone r
    else ⟨c.key i, c.value i, true⟩ :: expected c deletes (t + 1) (deletes t :: gone) r

def remaining (c : Cache K V) (gone : List (Option K)) (r : List ℕ) : List ℕ :=
  r.filter fun i => decide (c.key i ∉ gone)

/-- No step deletes the last entry of the walk while the walk stands on the one before it. -/
def EndSpared (c : Cache K V) (deletes : ℕ → Option K) : ℕ → List (Option K) → List ℕ → Prop
  | _, _, [] => True
  | t, gone, i :: r =>
    if c.key i ∈ gone then EndSpared c deletes t gone r
    else (∀ j, remaining c gone r = [j] → deletes t ≠ c.key j) ∧
      EndSpared c deletes (t + 1) (deletes t :: gone) r

/-- The walk yields every entry that is not deleted before its turn, once, in the order of the
list, and nothing else. -/
def WalkComplete (c : Cache K V) (order : Order) (deletes : ℕ → Option K) : Prop :=
  walkEntries c order deletes = expected c deletes 0 [] (order.list (nodes c))

theorem expected_nil {deletes : ℕ → Option K} {t : ℕ} {gone : List (Option K)}
    (h : remaining c gone r = []) : expected c deletes t gone r = [] := by
  induction r with
  | nil => rfl
  | cons i r ih =>
    unfold remaining at h ih
    by_cases hi : c.key i ∈ gone
    · rw [List.filter_cons_of_neg (by simpa using hi)] at h
      rw [expected, if_pos hi]
      exact ih h
    · rw [List.filter_cons_of_pos (by simpa using hi)] at h
      cases h

/-! ## Along the list -/

def Order.links (order : Order) (L : Links ℕ) : Links ℕ :=
  match order with
  | .mru => ⟨L.next, L.prev⟩
  | .lru => L

def Order.ends (order : Order) (e : Ends ℕ) : Ends ℕ :=
  match order with
  | .mru => ⟨e.tail, e.head⟩
  | .lru => e

section
omit [DecidableEq K]

theorem Listed.along (h : Listed c xs) (order : Order) :
    Linked (order.links c.links) (order.ends c.main) (order.list xs) := by
  cases order with
  | mru => exact h.linked.reverse
  | lru => exact h.linked

theorem walkStart_eq : walkStart c order = (order.ends c.main).head := by cases order <;> rfl

theorem walkLink_eq : walkLink c order i = (order.links c.links).next i := by cases order <;> rfl

theorem isLinked_iff (order : Order) {e : Ends ℕ} : isLinked c (some i) e = true ↔
    (order.links c.links).prev i ≠ none ∨ (order.links c.links).next i ≠ none ∨
      (order.ends e).head = some i ∨ (order.ends e).tail = some i := by
  cases order <;> simp [isLinked, Order.links, Order.ends, Option.isSome_iff_ne_none] <;> tauto

end

/-- A node of a list stays linked while one other node is deleted. -/
theorem linked_of_mem {L L' : Links ℕ} {e e' : Ends ℕ} {zs zs' : List ℕ} (h : Linked L e zs)
    (h' : Linked L' e' zs') (hzs : zs' = zs ∨ ∃ l d r, zs = l ++ d :: r ∧ zs' = l ++ r)
    (hj : j ∈ zs') :
    L'.prev j ≠ none ∨ L'.next j ≠ none ∨ e.head = some j ∨ e.tail = some j := by
  obtain ⟨u, v, rfl⟩ := List.append_of_mem hj
  obtain ⟨hprev, hnext⟩ := h'.links u j v rfl
  rw [hprev, hnext, h.head_eq, h.tail_eq]
  cases u with
  | cons x u => exact Or.inl (by simp)
  | nil =>
    cases v with
    | cons y v => exact Or.inr (Or.inl (by simp))
    | nil =>
      -- it is alone now, so it was at one of the ends
      rcases hzs with rfl | ⟨l, d, r, rfl, hlr⟩
      · exact Or.inr (Or.inr (Or.inl rfl))
      · cases l with
        | nil =>
          obtain rfl : [j] = r := by simpa using hlr
          exact Or.inr (Or.inr (Or.inr (by simp)))
        | cons x l =>
          obtain ⟨rfl, -⟩ := List.cons.inj (show j :: [] = x :: (l ++ r) from hlr)
          exact Or.inr (Or.inr (Or.inl (by simp)))

/-! ## One step -/

/-- What a loop body leaves: the list without the entry it deletes. -/
protected theorem Listed.deleteOne (h : Listed c xs) (key : Option K) :
    (Thinned c xs (deleteOne c key) xs ∧ ∀ i ∈ xs, c.key i ≠ key) ∨
      ∃ l d r, xs = l ++ d :: r ∧ c.key d = key ∧ Thinned c xs (deleteOne c key) (l ++ r) ∧
        (deleteOne c key).links.prev d = none ∧
        (deleteOne c key).links.next d = none ∧ (deleteOne c key).key d = none := by
  cases key with
  | none =>
    refine Or.inl ⟨.refl h, fun i hi => ?_⟩
    obtain ⟨k, hk⟩ := h.indexes.keyed i hi
    rw [hk]
    exact Option.some_ne_none k
  | some k =>
    have habort := Thinned.abortInflight h (some k)
    have hlookup : lookup (abortInflight c (some k)) k = c.map.get k := by
      rw [lookup_list habort.listed.policy, abortInflight_toHeap]
    simp only [deleteOne, Option.elim_some, delete, hlookup]
    cases hget : c.map.get k with
    | none => exact Or.inl ⟨habort, fun i hi => h.indexes.get_none hget hi⟩
    | some d =>
      obtain ⟨hd, hk⟩ := h.get_iff.mp hget
      obtain ⟨l, r, rfl⟩ := List.append_of_mem hd
      have hgone := Thinned.unlinked habort.listed
        (unlinkNode (abortInflight c (some k)) d false).counters
        ((unlinkNode (abortInflight c (some k)) d false).log ++
          [.onEvict ((abortInflight c (some k)).key d)
            ((abortInflight c (some k)).value d) "deleted"])
      exact Or.inr ⟨l, d, r, rfl, hk, habort.trans hgone, Function.update_self _ _ _,
        Function.update_self _ _ _, Function.update_self _ _ _⟩

/-- The rest of a list once the entry of a key is deleted. -/
theorem filter_deleted {l : List ℕ} {d : ℕ} {key : Option K} (h : Listed c xs)
    (hxs : order.list xs = l ++ d :: r) (hd : c.key d = key) :
    (order.list xs).filter (fun i => decide (c.key i ≠ key)) = l ++ r := by
  have hnodup := (h.along order).nodup
  rw [hxs] at hnodup
  have hmem : ∀ i ∈ l ++ d :: r, i ∈ xs := by
    intro i hi
    rw [← hxs] at hi
    cases order with
    | mru => exact List.mem_reverse.mp hi
    | lru => exact hi
  have hother : ∀ i ∈ l ++ r, decide (c.key i ≠ key) = true := by
    intro i hi
    have hi' : i ∈ l ++ d :: r := by
      rcases List.mem_append.mp hi with hi | hi <;> simp [hi]
    have hne : i ≠ d := by
      rintro rfl
      exact (List.nodup_middle.mp hnodup).notMem hi
    rw [← hd]
    exact decide_eq_true fun heq => hne (h.indexes.inj (hmem i hi') (hmem d (by simp)) heq)
  rw [hxs, List.filter_append, List.filter_cons_of_neg (by simpa using hd),
    List.filter_eq_self.mpr fun i hi => hother i (List.mem_append_left r hi),
    List.filter_eq_self.mpr fun i hi => hother i (List.mem_append_right l hi)]

/-- A step in the order of the walk: the list without the deleted entry, whose node has no
links. -/
theorem Listed.stepped (h : Listed c xs) (order : Order) (key : Option K) :
    ∃ xs', Thinned c xs (deleteOne c key) xs' ∧
      order.list xs' = (order.list xs).filter (fun i => decide (c.key i ≠ key)) ∧
      (order.list xs' = order.list xs ∨
        ∃ l d r, order.list xs = l ++ d :: r ∧ order.list xs' = l ++ r) ∧
      ∀ d ∈ xs, c.key d = key → (deleteOne c key).links.prev d = none ∧
        (deleteOne c key).links.next d = none ∧ (deleteOne c key).key d = none := by
  rcases h.deleteOne key with ⟨hthin, hnone⟩ | ⟨l, d, r, rfl, hd, hthin, hprev, hnext, hkey⟩
  · refine ⟨xs, hthin, ?_, Or.inl rfl, fun d hd hk => absurd hk (hnone d hd)⟩
    have hall : ∀ i ∈ order.list xs, decide (c.key i ≠ key) = true := by
      intro i hi
      have hi' : i ∈ xs := by
        cases order with
        | mru => exact List.mem_reverse.mp hi
        | lru => exact hi
      exact decide_eq_true (hnone i hi')
    exact (List.filter_eq_self.mpr hall).symm
  · have hsplit : ∃ l' r', order.list (l ++ d :: r) = l' ++ d :: r' ∧ order.list (l ++ r) = l' ++ r' := by
      cases order with
      | mru => exact ⟨r.reverse, l.reverse, by simp [Order.list], by simp [Order.list]⟩
      | lru => exact ⟨l, r, rfl, rfl⟩
    obtain ⟨l', r', hlist, hlist'⟩ := hsplit
    refine ⟨l ++ r, hthin, ?_, Or.inr ⟨l', d, r', hlist, hlist'⟩, fun d' hd' hk => ?_⟩
    · rw [filter_deleted h hlist hd, hlist']
    · obtain rfl : d' = d := h.indexes.inj hd' (by simp) (hk.trans hd.symm)
      exact ⟨hprev, hnext, hkey⟩

omit [DecidableEq K] in
theorem Order.mem_list (order : Order) : i ∈ order.list xs ↔ i ∈ xs := by
  cases order with
  | mru => exact List.mem_reverse
  | lru => exact Iff.rfl

omit [DecidableEq K] in
theorem isLinked_none {e : Ends ℕ} : isLinked c none e = false := rfl

/-- From a node that is still linked the walk goes on at the next one there is, unless that was
the last one and has gone. -/
protected theorem Listed.resume (h : Listed c xs) (hzs : order.list xs = a ++ i :: b) (key : Option K) :
    ((∀ j, b = [j] → key ≠ c.key j) →
      resume (deleteOne c key) order i (walkLink c order i) c.main =
        (b.filter fun j => decide (c.key j ≠ key)).head?) ∧
    ∀ j, b = [j] → key = c.key j →
      resume (deleteOne c key) order i (walkLink c order i) c.main = some j ∧
        (deleteOne c key).key j = none := by
  obtain ⟨xs', hthin, hfilter, hsplit, hfreed⟩ := h.stepped order key
  generalize deleteOne c key = c' at hthin hfreed ⊢
  have halong := h.along order
  have halong' := hthin.listed.along order
  have hmem : ∀ j, j ∈ a ++ i :: b → j ∈ xs := fun j hj =>
    (Order.mem_list order).mp (hzs ▸ hj)
  have hnext : walkLink c order i = b.head? := by
    rw [walkLink_eq]
    exact (halong.links a i b hzs).2
  have hstays : ∀ j, j ∈ a ++ i :: b → c.key j ≠ key → isLinked c' (some j) c.main = true := by
    intro j hj hk
    rw [isLinked_iff order]
    apply linked_of_mem halong halong' hsplit
    rw [hfilter, hzs]
    exact List.mem_filter.mpr ⟨hj, decide_eq_true hk⟩
  have hgone : ∀ j, j ∈ a ++ i :: b → c.key j = key → (isLinked c' (some j) c.main = true ↔
      (order.ends c.main).head = some j ∨ (order.ends c.main).tail = some j) := by
    intro j hj hk
    obtain ⟨hprev, hnext', -⟩ := hfreed j (hmem j hj) hk
    rw [isLinked_iff order]
    cases order <;> simp [Order.links, hprev, hnext']
  -- what comes behind the node now
  have hlink : c.key i ≠ key →
      walkLink c' order i = (b.filter fun j => decide (c.key j ≠ key)).head? := by
    intro hk
    rw [walkLink_eq]
    have hzs' : order.list xs' = (a.filter fun j => decide (c.key j ≠ key)) ++
        i :: b.filter fun j => decide (c.key j ≠ key) := by
      rw [hfilter, hzs, List.filter_append, List.filter_cons_of_pos (by simpa using hk)]
    exact (halong'.links _ _ _ hzs').2
  have hnodup := halong.nodup
  rw [hzs] at hnodup
  cases b with
  | nil =>
    refine ⟨fun _ => ?_, fun j hj => by simp at hj⟩
    have hend : walkLink c' order i = none := by
      by_cases hk : c.key i = key
      · obtain ⟨hprev, hnext', -⟩ := hfreed i (hmem i (by simp)) hk
        cases order with
        | mru => exact hprev
        | lru => exact hnext'
      · exact hlink hk
    rw [hnext]
    simp only [resume, List.head?_nil, isLinked_none, hend, Bool.false_eq_true,
      ite_self, List.filter_nil]
  | cons j b =>
    have hj : j ∈ a ++ i :: j :: b := by simp
    have hij : i ≠ j := by
      rintro rfl
      exact absurd hnodup (by simp [List.nodup_append])
    rw [hnext, List.head?_cons]
    by_cases hk : c.key j = key
    · have hik : c.key i ≠ key := fun heq =>
        hij (h.indexes.inj (hmem i (by simp)) (hmem j hj) (heq.trans hk.symm))
      constructor
      · intro hspared
        have hb : b ≠ [] := by
          rintro rfl
          exact hspared j rfl hk.symm
        have hlost : isLinked c' (some j) c.main = false := by
          rw [← Bool.not_eq_true, hgone j hj hk, halong.head_eq, halong.tail_eq, hzs]
          rintro (hhead | htail)
          · cases a with
            | nil => exact hij (by simpa using hhead)
            | cons x a =>
              obtain rfl : x = j := by simpa using hhead
              simp at hnodup
          · have hlast : (j :: b).getLast? = some j := by
              rw [List.getLast?_append_of_ne_nil _ (by simp)] at htail
              rwa [List.getLast?_cons_cons] at htail
            obtain ⟨y, b, rfl⟩ := List.exists_cons_of_ne_nil hb
            rw [List.getLast?_cons_cons] at hlast
            have hmem' : j ∈ y :: b := List.mem_of_getLast? hlast
            rw [List.nodup_append, List.nodup_cons, List.nodup_cons] at hnodup
            exact hnodup.2.1.2.1 hmem'
        simp only [resume, hstays i (by simp) hik, Bool.not_true, Bool.false_eq_true,
          if_false, hlost]
        exact hlink hik
      · intro j' hb hkey
        obtain ⟨rfl, rfl⟩ := List.cons.inj hb
        have hlast : isLinked c' (some j) c.main = true := by
          rw [hgone j hj hk, halong.tail_eq, hzs]
          exact Or.inr (by simp)
        refine ⟨?_, (hfreed j (hmem j hj) hk).2.2⟩
        simp only [resume, hlast, if_true, ite_self]
    · refine ⟨fun _ => ?_, fun j' hb hkey => ?_⟩
      · simp only [resume, hstays j hj hk, if_true, ite_self]
        rw [List.filter_cons_of_pos (by simpa using hk)]
        rfl
      · obtain ⟨rfl, rfl⟩ := List.cons.inj hb
        exact absurd hkey.symm hk

/-! ## The whole walk -/

theorem remaining_cons (c : Cache K V) (gone : List (Option K)) (key : Option K) (r : List ℕ) :
    (remaining c gone r).filter (fun i => decide (c.key i ≠ key)) = remaining c (key :: gone) r := by
  unfold remaining
  rw [List.filter_filter]
  apply List.filter_congr
  intro i _
  rw [← Bool.decide_and]
  apply decide_eq_decide.mpr
  rw [List.mem_cons, not_or]

/-- From where it stands a walk yields what it should if and only if the end is spared. `c₀` is
the cache when the walk began, and `gone` are the keys that were deleted since. -/
theorem walkLoop_iff (c₀ : Cache K V) (deletes : ℕ → Option K) (r : List ℕ) {budget : ℕ} (t : ℕ)
    (gone : List (Option K)) (h : Listed c xs) (hzs : order.list xs = a ++ remaining c₀ gone r)
    (hsame : SameOn xs c₀.toFields c.toFields) (hbudget : (remaining c₀ gone r).length ≤ budget) :
    walkLoop order deletes budget t (remaining c₀ gone r).head? c = expected c₀ deletes t gone r ↔
      EndSpared c₀ deletes t gone r := by
  induction r generalizing c xs a budget t gone with
  | nil =>
    have hloop : walkLoop order deletes budget t none c = [] := by cases budget <;> rfl
    simp only [remaining, List.filter_nil, List.head?_nil, hloop, expected, EndSpared]
  | cons i r ih =>
    by_cases hi : c₀.key i ∈ gone
    · have hskip : remaining c₀ gone (i :: r) = remaining c₀ gone r :=
        List.filter_cons_of_neg (by simpa using hi)
      rw [hskip] at hzs hbudget ⊢
      rw [expected, if_pos hi, EndSpared, if_pos hi]
      exact ih t gone h hzs hsame hbudget
    · have hturn : remaining c₀ gone (i :: r) = i :: remaining c₀ gone r :=
        List.filter_cons_of_pos (by simpa using hi)
      rw [hturn] at hzs hbudget ⊢
      rw [expected, if_neg hi, EndSpared, if_neg hi]
      have hmem : ∀ j ∈ i :: remaining c₀ gone r, j ∈ xs := by
        intro j hj
        rw [← Order.mem_list order, hzs]
        exact List.mem_append_right a hj
      have hkeys : ∀ j ∈ i :: remaining c₀ gone r, c.key j = c₀.key j := fun j hj =>
        (hsame j (hmem j hj)).1
      have hlive : live c i = true := by
        obtain ⟨k, hk⟩ := h.indexes.keyed i (hmem i (by simp))
        simp [live, hk, h.indexes.get_some (hmem i (by simp)) hk]
      obtain ⟨hkey, hvalue, -⟩ := hsame i (hmem i (by simp))
      obtain ⟨budget, rfl⟩ : ∃ n, budget = n + 1 := by
        obtain ⟨n, hn⟩ := Nat.exists_eq_add_of_le' (le_trans (by simp) hbudget : 1 ≤ budget)
        exact ⟨n, hn⟩
      have hbudget' : (remaining c₀ gone r).length ≤ budget := by simpa using hbudget
      simp only [List.head?_cons, walkLoop, hkey, hvalue, hlive, List.cons.injEq, true_and]
      obtain ⟨hgoes, hlost⟩ := h.resume hzs (deletes t)
      obtain ⟨xs', hthin, hfilter, -⟩ := h.stepped order (deletes t)
      have hrest : (remaining c₀ gone r).filter (fun j => decide (c.key j ≠ deletes t)) =
          remaining c₀ (deletes t :: gone) r := by
        rw [← remaining_cons]
        apply List.filter_congr
        intro j hj
        rw [hkeys j (List.mem_cons_of_mem i hj)]
      by_cases hspared : ∀ j, remaining c₀ gone r = [j] → deletes t ≠ c₀.key j
      · rw [and_iff_right hspared, hgoes, hrest]
        · apply ih (t + 1) (deletes t :: gone) hthin.listed (a := (a ++ [i]).filter fun j => decide (c.key j ≠ deletes t))
          · rw [hfilter, hzs, ← hrest, ← List.filter_append, List.append_assoc, List.singleton_append]
          · exact (hsame.mono hthin.sublist.subset).trans hthin.entries
          · rw [← hrest]
            exact (List.length_filter_le _ _).trans hbudget'
        · intro j hj
          rw [hkeys j (by simp [hj])]
          exact hspared j hj
      · -- the last entry has gone, and the walk yields its node
        refine iff_of_false ?_ fun hall => hspared hall.1
        push Not at hspared
        obtain ⟨j, hj, hdeleted⟩ := hspared
        obtain ⟨hresume, -⟩ := hlost j hj (by rw [hkeys j (by simp [hj]), hdeleted])
        have hnil : remaining c₀ (deletes t :: gone) r = [] := by
          rw [← remaining_cons, hj]
          simp [hdeleted]
        rw [hresume, expected_nil hnil]
        obtain ⟨budget, rfl⟩ : ∃ n, budget = n + 1 := by
          rw [hj] at hbudget'
          exact Nat.exists_eq_add_of_le' hbudget'
        exact List.cons_ne_nil _ _

theorem Listed.walk_iff (h : Listed c xs) (order : Order) (deletes : ℕ → Option K) :
    WalkComplete c order deletes ↔ EndSpared c deletes 0 [] (order.list (nodes c)) := by
  have hnodes : nodes c = xs := h.linked.walk_next h.length_le
  have hall : remaining c [] (order.list xs) = order.list xs := by simp [remaining]
  have hlength : (order.list xs).length = xs.length := by cases order <;> simp [Order.list]
  have hbudget : (remaining c [] (order.list xs)).length ≤ c.map.size := by
    rw [hall, hlength, h.size_eq]
  have hloop := walkLoop_iff c deletes (order.list xs) 0 [] (a := []) h (by rw [hall]; rfl)
    (.refl _ _) hbudget
  unfold WalkComplete walkEntries
  rw [hnodes, walkStart_eq, (h.along order).head_eq]
  rw [hall] at hloop
  exact hloop

/-- In every state of a run that takes no node out from under the eviction candidate, a walk
whose loop body deletes an entry at a time yields what it should if and only if it never stands
on the last entry but one when the last is deleted. -/
theorem walks_complete {o : Options K V} {c : Cache K V} (hnew : new o = .ok c)
    (hpol : o.policy ≠ .s3fifo) (cs : List (Call K V)) (hok : Meets call CallOk c cs) :
    Always call (fun c => ∀ order deletes,
      WalkComplete c order deletes ↔ EndSpared c deletes 0 [] (order.list (nodes c))) c cs := by
  have hstart : ∃ xs, Held c xs := ⟨[], Held.new hnew hpol⟩
  have hall : Always call (fun c => ∃ xs, Held c xs) c cs :=
    always_of_meets (fun _ _ ⟨_, h⟩ hok => h.call hok) hstart hok
  exact hall.mono fun _ ⟨_, h⟩ order deletes => h.toListed.walk_iff order deletes

/-- Three entries of a segmented list, one of them used and one swept away. -/
theorem walks_complete_segments :
    let o : Options ℕ ℕ := { policy := .slru, maxEntries := some 4 }
    let c : Cache ℕ ℕ := initial o (some 4) 4 none (some 1000)
    Always call (fun c => ∀ order deletes,
      WalkComplete c order deletes ↔ EndSpared c deletes 0 [] (order.list (nodes c))) c
      [.event (.set 1 10 none none 1), .event (.set 2 20 (some (.ms 5)) none 2),
      .event (.set 3 30 none none 3), .event (.get 1 4), .event (.set 4 40 none none 5),
      .event (.cleanupExpiredUpTo none 9), .event (.delete 3)] := by
  intro o c
  have hnew : new o = .ok c := rfl
  refine walks_complete hnew (by simp [o]) _ ?_
  clear hnew
  subst o c
  decide +kernel

/-- The walk stands on the second of two entries, and the loop body deletes the first. -/
theorem deleted_end_is_yielded :
    let o : Options ℕ ℕ := { maxEntries := some 4 }
    let c : Cache ℕ ℕ := initial o (some 4) 4 none (some 1000)
    new o = .ok c ∧ ¬Always call (fun c => ∀ order deletes, WalkComplete c order deletes) c
      [.event (.set 1 10 none none 1), .event (.set 2 20 none none 2)] := by
  refine ⟨rfl, fun h => ?_⟩
  have hcomplete := h.last .mru fun t => if t = 0 then some 1 else none
  unfold WalkComplete at hcomplete
  revert hcomplete
  decide +kernel

end PerformanceHelpers.PowerCache
