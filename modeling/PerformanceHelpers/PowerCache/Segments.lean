import PerformanceHelpers.PowerCache.ListRuns

/- The segments of a segmented LRU list.

   A run is told by the marks of its calls: what was inserted, used and taken out,
   in this order. The last mark of each entry says in which segment it is, and their
   order is the order of the list: first the entries that were inserted and not used
   since, then those that were used. A move of the list keeps that, and so an entry
   that was used is evicted only when all others were. -/
namespace PerformanceHelpers.PowerCache

variable {K V : Type}

/-- The key of the entry. -/
def Mark.key : Mark K → K
  | .inserted key | .written key | .used key | .removed key | .evicted key => key

/-- A write by itself moves nothing: what is written is used at once. -/
def Mark.moves : Mark K → Bool
  | .written _ => false
  | .inserted _ | .used _ | .removed _ | .evicted _ => true

def Mark.insertedKey : Mark K → Option K
  | .inserted key => some key
  | .written _ | .used _ | .removed _ | .evicted _ => none

def Mark.usedKey : Mark K → Option K
  | .used key => some key
  | .inserted _ | .written _ | .removed _ | .evicted _ => none

variable [DecidableEq K]

def lastMarks (hist : List (Mark K)) : List (Mark K) :=
  (hist.filter Mark.moves).pwFilter fun m m' => m.key ≠ m'.key

/-- The entries that were inserted and neither used nor taken out since, by their insertion. -/
def unaccessed (hist : List (Mark K)) : List K := (lastMarks hist).filterMap Mark.insertedKey

def accessed (hist : List (Mark K)) : List K := (lastMarks hist).filterMap Mark.usedKey

def EvictsUnaccessed (hist : List (Mark K)) : Prop :=
  ∀ before k after, hist = before ++ .evicted k :: after → k ∈ accessed before → unaccessed before = []

structure Segments (c : Cache K V) (xs : List ℕ) (hist : List (Mark K)) : Prop where
  segments : ∃ ps qs, xs = ps ++ qs ∧ c.probationEnd = ps.getLast? ∧
    ps.map c.key = (unaccessed hist).map some ∧ qs.map c.key = (accessed hist).map some
  evicts : EvictsUnaccessed hist

/-! ## One more mark -/

section
variable {hist : List (Mark K)} {m : Mark K} {k : K}

/-- What comes last is kept, and nothing else of its kind. -/
theorem pwFilter_concat {α β : Type*} [DecidableEq β] (f : α → β) (xs : List α) (x : α) :
    (xs ++ [x]).pwFilter (fun a b => f a ≠ f b) =
      (xs.pwFilter fun a b => f a ≠ f b).filter (fun a => f a ≠ f x) ++ [x] := by
  induction xs with
  | nil => rfl
  | cons a xs ih =>
    have hkept : (∀ b ∈ (xs ++ [x]).pwFilter (fun a b => f a ≠ f b), f a ≠ f b) ↔
        (∀ b ∈ xs.pwFilter (fun a b => f a ≠ f b), f a ≠ f b) ∧ f a ≠ f x := by
      rw [ih]
      constructor
      · intro h
        have hx : f a ≠ f x := h x (by simp)
        refine ⟨fun b hb hab => ?_, hx⟩
        exact h b (List.mem_append_left _ (List.mem_filter.mpr ⟨hb, by simpa [← hab] using hx⟩)) hab
      · rintro ⟨h, hx⟩ b hb
        rcases List.mem_append.mp hb with hb | hb
        · exact h b (List.mem_of_mem_filter hb)
        · rw [List.mem_singleton.mp hb]
          exact hx
    rw [List.cons_append]
    by_cases hx : f a = f x
    · rw [List.pwFilter_cons_of_neg fun h => (hkept.mp h).2 hx, ih]
      by_cases ha : ∀ b ∈ xs.pwFilter (fun a b => f a ≠ f b), f a ≠ f b
      · rw [List.pwFilter_cons_of_pos ha, List.filter_cons_of_neg (by simpa using hx)]
      · rw [List.pwFilter_cons_of_neg ha]
    · by_cases ha : ∀ b ∈ xs.pwFilter (fun a b => f a ≠ f b), f a ≠ f b
      · rw [List.pwFilter_cons_of_pos (hkept.mpr ⟨ha, hx⟩), List.pwFilter_cons_of_pos ha,
          List.filter_cons_of_pos (by simpa using hx), ih, List.cons_append]
      · rw [List.pwFilter_cons_of_neg fun h => ha (hkept.mp h).1, List.pwFilter_cons_of_neg ha, ih]

theorem lastMarks_concat (hm : m.moves) : lastMarks (hist ++ [m]) =
    (lastMarks hist).filter (fun m' => m'.key ≠ m.key) ++ [m] := by
  rw [lastMarks, List.filter_append, List.filter_cons_of_pos hm, List.filter_nil, pwFilter_concat]
  rfl

theorem lastMarks_written : lastMarks (hist ++ [.written k]) = lastMarks hist := by
  rw [lastMarks, List.filter_append, List.filter_cons_of_neg (by simp [Mark.moves]),
    List.filter_nil, List.append_nil]
  rfl

/-- The entries of a kind, without one. -/
theorem filterMap_filter_key {f : Mark K → Option K} (hf : ∀ m k, f m = some k → m.key = k)
    (ms : List (Mark K)) : (ms.filter fun m => m.key ≠ k).filterMap f =
      (ms.filterMap f).filter fun k' => k' ≠ k := by
  induction ms with
  | nil => rfl
  | cons m ms ih =>
    cases hm : f m with
    | none =>
      rw [List.filterMap_cons_none hm, ← ih, List.filter_cons]
      split
      · exact List.filterMap_cons_none hm
      · rfl
    | some k' =>
      have hkey := hf m k' hm
      rw [List.filterMap_cons_some hm, List.filter_cons, List.filter_cons, hkey, ← ih]
      split
      · exact List.filterMap_cons_some hm
      · rfl

omit [DecidableEq K] in
theorem insertedKey_key (m : Mark K) (k : K) (h : m.insertedKey = some k) : m.key = k := by
  cases m <;> simp_all [Mark.insertedKey, Mark.key]

omit [DecidableEq K] in
theorem usedKey_key (m : Mark K) (k : K) (h : m.usedKey = some k) : m.key = k := by
  cases m <;> simp_all [Mark.usedKey, Mark.key]

theorem unaccessed_concat (hm : m.moves) : unaccessed (hist ++ [m]) =
    ((unaccessed hist).filter fun k => k ≠ m.key) ++ m.insertedKey.toList := by
  rw [unaccessed, lastMarks_concat hm, List.filterMap_append, filterMap_filter_key insertedKey_key]
  cases m <;> rfl

theorem accessed_concat (hm : m.moves) : accessed (hist ++ [m]) =
    ((accessed hist).filter fun k => k ≠ m.key) ++ m.usedKey.toList := by
  rw [accessed, lastMarks_concat hm, List.filterMap_append, filterMap_filter_key usedKey_key]
  cases m <;> rfl

omit [DecidableEq K] in
theorem split_concat {before after : List (Mark K)} {m' : Mark K}
    (h : hist ++ [m] = before ++ m' :: after) :
    (before = hist ∧ m' = m) ∨ ∃ after', hist = before ++ m' :: after' := by
  rcases List.eq_nil_or_concat' after with rfl | ⟨after, m'', rfl⟩
  · obtain ⟨hbefore, hm⟩ := List.append_inj' h rfl
    exact Or.inl ⟨hbefore.symm, (List.cons.inj hm).1.symm⟩
  · rw [← List.cons_append, ← List.append_assoc] at h
    exact Or.inr ⟨after, (List.append_inj' h rfl).1⟩

theorem EvictsUnaccessed.concat (h : EvictsUnaccessed hist)
    (hm : ∀ k, m = .evicted k → k ∈ accessed hist → unaccessed hist = []) :
    EvictsUnaccessed (hist ++ [m]) := by
  intro before k after hsplit hk
  rcases split_concat hsplit with ⟨rfl, hmark⟩ | ⟨after', hhist⟩
  · exact hm k hmark.symm hk
  · exact h before k after' hhist hk

end

/-! ## One move -/

section
variable {c c' : Cache K V} {xs xs' l r ps qs : List ℕ} {hist ms : List (Mark K)} {m : Mark K} {i : ℕ} {k : K}

omit [DecidableEq K] in
/-- The last node of the first segment, once a node has left. -/
theorem getLast?_filter_ne (hnd : (l ++ i :: r).Nodup) (hxs : l ++ i :: r = ps ++ qs) :
    (ps.filter fun j => j ≠ i).getLast? = if ps.getLast? = some i then l.getLast? else ps.getLast? := by
  have hnot := (List.nodup_middle.mp hnd).notMem
  rw [List.mem_append, not_or] at hnot
  have hall : ∀ ys : List ℕ, i ∉ ys → (ys.filter fun j => decide (j ≠ i)) = ys := by
    intro ys hys
    refine List.filter_eq_self.mpr fun j hj => ?_
    rw [decide_eq_true_eq]
    rintro rfl
    exact hys hj
  rcases List.append_eq_append_iff.mp hxs with ⟨s, hps, hs⟩ | ⟨s, rfl, -⟩
  · cases s with
    | nil =>
      rw [List.append_nil] at hps
      subst hps
      rw [hall ps hnot.1, if_neg fun h => hnot.1 (List.mem_of_getLast? h)]
    | cons j s =>
      obtain ⟨rfl, hr⟩ := List.cons.inj hs
      have hs' : i ∉ s := fun h => hnot.2 (hr ▸ List.mem_append_left _ h)
      rw [hps, List.filter_append, List.filter_cons_of_neg (by simp), hall l hnot.1, hall s hs']
      rcases List.eq_nil_or_concat' s with rfl | ⟨s, j, rfl⟩
      · simp
      · have hji : j ≠ i := fun h => hs' (by simp [h])
        have hlast : (l ++ i :: (s ++ [j])).getLast? = some j := by
          rw [← List.cons_append, ← List.append_assoc, List.getLast?_concat]
        have hlast' : (l ++ (s ++ [j])).getLast? = some j := by
          rw [← List.append_assoc, List.getLast?_concat]
        rw [hlast, hlast', if_neg (by simpa using hji)]
  · have hps : i ∉ ps := fun h => hnot.1 (List.mem_append_left _ h)
    rw [hall ps hps, if_neg fun h => hps (List.mem_of_getLast? h)]

omit [DecidableEq K] in
/-- What a first segment ends with says which one it is. -/
theorem eq_of_getLast? (hnd : (l ++ r).Nodup) (hxs : l ++ r = ps ++ qs)
    (hlast : l.getLast? = ps.getLast?) : l = ps := by
  have hdisjoint : ∀ {a b s : List ℕ}, (a ++ s ++ b).Nodup → a.getLast? = (a ++ s).getLast? → s = [] := by
    intro a b s hnd hlast
    rcases List.eq_nil_or_concat' s with rfl | ⟨s, j, rfl⟩
    · rfl
    · rw [← List.append_assoc, List.getLast?_concat] at hlast
      have hj : j ∈ a := List.mem_of_getLast? hlast
      have hnd' := (List.nodup_append.mp hnd).1
      exact absurd rfl ((List.nodup_append.mp hnd').2.2 j hj j (by simp))
  rcases List.append_eq_append_iff.mp hxs with ⟨s, rfl, -⟩ | ⟨s, rfl, -⟩
  · rw [hxs] at hnd
    rw [hdisjoint hnd hlast, List.append_nil]
  · rw [hdisjoint hnd hlast.symm, List.append_nil]

/-- The keys of the nodes of a segment, once an entry has left. -/
theorem map_filter_key {ys : List ℕ} {ks : List K} (h : Indexes c.map c.key xs) (hi : i ∈ xs)
    (hk : c.key i = some k) (hsub : ys ⊆ xs) (hys : ys.map c.key = ks.map some) :
    (ys.filter fun j => j ≠ i).map c.key = (ks.filter fun k' => k' ≠ k).map some := by
  have hsame : (ys.filter fun j => decide (j ≠ i)) = ys.filter fun j => decide (c.key j ≠ some k) := by
    refine List.filter_congr fun j hj => decide_eq_decide.mpr (not_congr ⟨?_, fun hkj => ?_⟩)
    · rintro rfl
      exact hk
    · exact h.inj (hsub hj) hi (hkj.trans hk.symm)
  have hsome : ((fun o => decide (o ≠ some k)) ∘ some) = fun k' : K => decide (k' ≠ k) := by
    funext k'
    simp
  calc (ys.filter fun j => decide (j ≠ i)).map c.key
      = (ys.map c.key).filter fun o => decide (o ≠ some k) := by rw [hsame, List.filter_map]; rfl
    _ = (ks.filter fun k' => decide (k' ≠ k)).map some := by rw [hys, List.filter_map, hsome]

omit [DecidableEq K] in
theorem filter_split (hnd : (l ++ i :: r).Nodup) (hxs : l ++ i :: r = ps ++ qs) :
    l ++ r = (ps.filter fun j => j ≠ i) ++ qs.filter fun j => j ≠ i := by
  have hnot := (List.nodup_middle.mp hnd).notMem
  have hall : ((l ++ r).filter fun j => decide (j ≠ i)) = l ++ r := by
    refine List.filter_eq_self.mpr fun j hj => ?_
    rw [decide_eq_true_eq]
    rintro rfl
    exact hnot hj
  rw [← List.filter_append, ← hxs, List.filter_append, List.filter_cons_of_neg (by simp),
    ← List.filter_append, hall]

namespace Segments

/-- Only the nodes, their keys and the end of the first segment matter. -/
theorem congr (h : Segments c xs hist) (hkey : c'.key = c.key)
    (hend : c'.probationEnd = c.probationEnd) : Segments c' xs hist := by
  obtain ⟨ps, qs, hxs, hboundary, hps, hqs⟩ := h.segments
  refine ⟨⟨ps, qs, hxs, hend.trans hboundary, ?_, ?_⟩, h.evicts⟩
  · rw [hkey]
    exact hps
  · rw [hkey]
    exact hqs

theorem write (h : Segments c xs hist) (hkey : c'.key = c.key)
    (hend : c'.probationEnd = c.probationEnd) : Segments c' xs (hist ++ [.written k]) := by
  obtain ⟨ps, qs, hxs, hboundary, hps, hqs⟩ := (h.congr hkey hend).segments
  refine ⟨⟨ps, qs, hxs, hboundary, ?_, ?_⟩, h.evicts.concat (by simp)⟩
  · rw [unaccessed, lastMarks_written]
    exact hps
  · rw [accessed, lastMarks_written]
    exact hqs

section
variable (h : Segments c (l ++ i :: r) hist) (hlisted : Listed c (l ++ i :: r))
include h hlisted

/-- A node leaves its segment, and comes back at the end of the second if it was used. -/
theorem take
    (hk : c.key i = some k) (hend : c'.probationEnd =
      if c.probationEnd = some i then l.getLast? else c.probationEnd) :
    ∃ ps qs, l ++ r = ps ++ qs ∧ c'.probationEnd = ps.getLast? ∧
      ps.map c.key = ((unaccessed hist).filter fun k' => k' ≠ k).map some ∧
      qs.map c.key = ((accessed hist).filter fun k' => k' ≠ k).map some := by
  obtain ⟨ps, qs, hxs, hboundary, hps, hqs⟩ := h.segments
  have hnd := hlisted.linked.nodup
  have hi : i ∈ l ++ i :: r := by simp
  refine ⟨_, _, filter_split hnd hxs, ?_, map_filter_key hlisted.indexes hi hk ?_ hps,
    map_filter_key hlisted.indexes hi hk ?_ hqs⟩
  · rw [hend, getLast?_filter_ne hnd hxs, hboundary]
  · rw [hxs]
    exact List.subset_append_left ps qs
  · rw [hxs]
    exact List.subset_append_right ps qs

theorem use
    (hpol : c.policy = .slru) (hk : c.key i = some k) :
    Segments (moveToTail c i) (usedOrder c.policy l i r) (hist ++ [.used k]) := by
  have hkey : (moveToTail c i).key = c.key := by
    rw [moveToTail_slru hpol]
    exact congrArg Fields.key protect_frame.2.1
  have hend : (moveToTail c i).probationEnd =
      if c.probationEnd = some i then l.getLast? else c.probationEnd := by
    rw [moveToTail_slru hpol]
    exact (hlisted.protect hpol).2.2
  obtain ⟨ps, qs, hlr, hboundary, hps, hqs⟩ := h.take hlisted hk hend
  refine ⟨⟨ps, qs ++ [i], ?_, hboundary, ?_, ?_⟩, h.evicts.concat (by simp)⟩
  · simp [usedOrder, hpol, hlr]
  · rw [hkey, hps, unaccessed_concat rfl]
    exact congrArg _ (List.append_nil _).symm
  · rw [hkey, List.map_append, hqs, accessed_concat rfl, List.map_append, List.map_singleton, hk]
    rfl

theorem drop {advance : Bool} {cs : Counters} {cbs : List (Callback K V)}
    (hk : c.key i = some k)
    (hm : m = .removed k ∨ m = .evicted k) (hfirst : m = .evicted k → l = []) :
    Segments (freeNode { unlinkNode c i advance with counters := cs, log := cbs } i) (l ++ r)
      (hist ++ [m]) := by
  have hend : (unlinkNode c i advance).probationEnd =
      if c.probationEnd = some i then l.getLast? else c.probationEnd := by
    rw [unlinkNode_probationEnd, hlisted.prev_eq]
  obtain ⟨ps, qs, hlr, hboundary, hps, hqs⟩ := h.take hlisted hk hend
  have hnot := hlisted.notMem
  have hkey : ∀ ys : List ℕ, i ∉ ys →
      ys.map (Function.update (unlinkNode c i advance).key i none) = ys.map c.key := by
    intro ys hys
    refine List.map_congr_left fun j hj => ?_
    rw [Function.update_of_ne (by rintro rfl; exact hys hj), unlinkNode_toFields]
  have hmoves : m.moves = true := by rcases hm with rfl | rfl <;> rfl
  have hmkey : m.key = k := by rcases hm with rfl | rfl <;> rfl
  have hmins : m.insertedKey = none := by rcases hm with rfl | rfl <;> rfl
  have hmused : m.usedKey = none := by rcases hm with rfl | rfl <;> rfl
  rw [hlr, List.mem_append, not_or] at hnot
  refine ⟨⟨ps, qs, hlr, hboundary, ?_, ?_⟩, h.evicts.concat fun k' hk' hmem => ?_⟩
  · refine (hkey ps hnot.1).trans ?_
    rw [hps, unaccessed_concat hmoves, hmkey, hmins]
    simp
  · refine (hkey qs hnot.2).trans ?_
    rw [hqs, accessed_concat hmoves, hmkey, hmused]
    simp
  · obtain rfl : k' = k := by rcases hm with rfl | rfl <;> simp_all
    have hl := hfirst hk'
    subst hl
    obtain ⟨ps, qs, hxs, -, hps, hqs⟩ := h.segments
    cases ps with
    | nil =>
      have hlength := congrArg List.length hps
      simpa using hlength.symm
    | cons j ps =>
      -- the first node would be in both segments
      obtain ⟨rfl, -⟩ := List.cons.inj hxs
      have hmem' : some k' ∈ qs.map c.key := by
        rw [hqs]
        exact List.mem_map_of_mem hmem
      obtain ⟨j, hj, hkj⟩ := List.mem_map.mp hmem'
      have hji := hlisted.indexes.inj (i := j) (j := i) (by simp [hxs, hj]) (by simp)
        (hkj.trans hk.symm)
      have hnd := hlisted.linked.nodup
      rw [hxs] at hnd
      simp [← hji, hj] at hnd

end

theorem insert {v : V} {w x : ℚ} (h : Segments c (l ++ r) hist) (hlisted : Listed c (l ++ r))
    (hpol : c.policy = .slru) (hfresh : c.map.get k = none) (hplace : Place c l r) :
    Segments (insertNode c k v w x) (l ++ (takeNode c).2 :: r) (hist ++ [.inserted k]) := by
  obtain ⟨ps, qs, hxs, hboundary, hps, hqs⟩ := h.segments
  have hend : c.probationEnd = l.getLast? := by
    unfold Place at hplace
    rwa [if_pos hpol] at hplace
  obtain rfl : l = ps :=
    eq_of_getLast? hlisted.linked.nodup hxs (hend.symm.trans hboundary)
  obtain rfl : r = qs := List.append_cancel_left hxs
  have hi : (takeNode c).2 ∉ l ++ r := hlisted.layout.shape.takeNode.held_notMem List.mem_cons_self .main
  rw [List.mem_append, not_or] at hi
  have hkey : (insertNode c k v w x).key = Function.update c.key (takeNode c).2 (some k) :=
    congrArg Fields.key insertNode_frame.2.1
  have hkey' : ∀ ys : List ℕ, (takeNode c).2 ∉ ys → ys.map (insertNode c k v w x).key = ys.map c.key := by
    intro ys hys
    rw [hkey]
    refine List.map_congr_left fun j hj => ?_
    rw [Function.update_of_ne (by rintro rfl; exact hys hj)]
  have hold : ∀ (ys : List ℕ) (ks : List K), ys ⊆ l ++ r → ys.map c.key = ks.map some →
      (ks.filter fun k' => decide (k' ≠ (Mark.inserted k).key)) = ks := by
    intro ys ks hsub hys
    refine List.filter_eq_self.mpr fun k' hk' => decide_eq_true ?_
    rintro rfl
    have hmem : some k' ∈ ys.map c.key := by
      rw [hys]
      exact List.mem_map_of_mem hk'
    obtain ⟨j, hj, hkj⟩ := List.mem_map.mp hmem
    exact hlisted.indexes.get_none hfresh (hsub hj) hkj
  refine ⟨⟨l ++ [(takeNode c).2], r, by simp, ?_, ?_, ?_⟩, h.evicts.concat (by simp)⟩
  · rw [(hlisted.insertNode hfresh hplace).2.2.1, if_pos hpol, List.getLast?_concat]
  · rw [List.map_append, hkey' l hi.1, hps, unaccessed_concat rfl, List.map_append, List.map_singleton,
      hkey, Function.update_self, hold l _ (List.subset_append_left l r) hps]
    rfl
  · rw [hkey' r hi.2, hqs, accessed_concat rfl, hold r _ (List.subset_append_right l r) hqs]
    exact congrArg _ (List.append_nil _).symm

theorem move (h : Segments c xs hist) (hlisted : Listed c xs) (hpol : c.policy = .slru)
    (horder : InOrder c.toConfig) (hmove : Move c xs ms c' xs') : Segments c' xs' (hist ++ ms) := by
  cases hmove with
  | note cbs config key weight heap current log unmarked =>
    rw [List.append_nil]
    exact h.congr key (by rw [heap])
  | head | cursor _ _ | hand _ _ _ =>
    rw [List.append_nil]
    exact h.congr rfl rfl
  | use nodes key window =>
    subst nodes
    exact h.use hlisted hpol key
  | write mem key value w x weight => exact h.write rfl rfl
  | insert v w x nodes weight fresh place window =>
    subst nodes
    exact h.insert hlisted hpol fresh place
  | drop advance cs cb nodes key mark callback first =>
    subst nodes
    exact h.drop hlisted key mark fun hm => first hm horder
  | window windowed listed config key weight current log perm marks =>
    exact absurd windowed horder.2.2
  | enter windowed listed config log weights => exact absurd windowed horder.2.2

theorem moves (h : Segments c xs hist) (hlisted : Listed c xs) (hpol : c.policy = .slru)
    (horder : InOrder c.toConfig) (hmoves : Moves c xs ms c' xs') : Segments c' xs' (hist ++ ms) := by
  induction hmoves with
  | refl c =>
    rw [List.append_nil]
    exact h
  | tail hmoves hmove ih =>
    have hconfig := hmoves.config hlisted
    rw [← List.append_assoc]
    refine (ih h hlisted).move (hmoves.listed hlisted) ?_ ?_ hmove
    · rw [hconfig]
      exact hpol
    · rw [hconfig]
      exact horder

end Segments

end

/-! ## Runs -/

/-- A call, and what it made of the entries. -/
def noted (s : Cache K V × List (Mark K)) (ev : Event K V) : Cache K V × List (Mark K) :=
  ((step s.1 ev).1, s.2 ++ marks s.1 ev)

/-- The list is the two segments, told by the run: `_probationEnd` is the last node of the first,
its entries were never accessed since they were inserted, the others are in the order of
their last access. While there are some of the first, none of the others is evicted. -/
structure SegmentsKept (s : Cache K V × List (Mark K)) : Prop where
  segments : ∃ ps qs, Linked s.1.links s.1.main (ps ++ qs) ∧ Indexes s.1.map s.1.key (ps ++ qs) ∧
    s.1.probationEnd = ps.getLast? ∧ ps.map s.1.key = (unaccessed s.2).map some ∧
    qs.map s.1.key = (accessed s.2).map some
  evicts : EvictsUnaccessed s.2

/-- What holds of a cache and the marks of its run between two calls. -/
structure Told (s : Cache K V × List (Mark K)) (xs : List ℕ) : Prop where
  ready : Ready s.1 xs
  policy : s.1.policy = .slru
  missCost : s.1.missCost = none
  segments : Segments s.1 xs s.2

namespace Told

variable {c : Cache K V} {xs : List ℕ} {s : Cache K V × List (Mark K)}

theorem kept (h : Told s xs) : SegmentsKept s := by
  obtain ⟨ps, qs, rfl, hboundary, hps, hqs⟩ := h.segments.segments
  exact ⟨⟨ps, qs, h.ready.linked, h.ready.indexes, hboundary, hps, hqs⟩, h.segments.evicts⟩

/-- What `resize` sets first is no part of the segments. -/
protected theorem limited (h : Told (c, hist) xs) (ev : Event K V) : Told (limited c ev, hist) xs := by
  refine ⟨h.ready.limited ev, ?_, ?_, h.segments.congr ?_ ?_⟩ <;> cases ev <;>
    first | exact h.policy | exact h.missCost | rfl

protected theorem step {ev : Event K V} (h : Told s xs) : ∃ xs', Told (noted s ev) xs' := by
  obtain ⟨c, hist⟩ := s
  have hwindow : ¬Windowed c.toConfig := fun hwindow =>
    absurd ((h.ready.lru hwindow).symm.trans h.policy) (by simp)
  have hsketch : c.sketch = none := by
    by_contra hne
    exact absurd ((h.ready.setup.sketch hne).symm.trans h.policy) (by simp)
  obtain ⟨ms, xs', hgoes, hms, -⟩ :=
    h.ready.step (h.ready.head_ok ev (h.ready.atHead (Or.inr ⟨h.missCost, hwindow⟩)))
  have hlimited := h.limited ev
  have hconfig := hgoes.moves.config hlimited.ready.toListed
  have horder : InOrder (limited c ev).toConfig := by
    have hpolicy : (limited c ev).policy = .slru := hlimited.policy
    refine ⟨?_, hlimited.missCost, ?_⟩
    · rw [hpolicy]
      exact fun hsieve => nomatch hsieve
    · cases ev <;> exact hwindow
  refine ⟨xs', hgoes.ready, ?_, ?_, ?_⟩
  · show (step c ev).1.policy = .slru
    rw [hconfig]
    exact hlimited.policy
  · show (step c ev).1.missCost = none
    rw [hconfig]
    exact hlimited.missCost
  · show Segments (step c ev).1 xs' (hist ++ marks c ev)
    rw [← hms hsketch]
    exact hlimited.segments.moves hlimited.ready.toListed hlimited.policy horder hgoes.moves

end Told

/-- A segmented LRU list without costs is its segments, in every state of a run. -/
theorem slru_keeps_segments {o : Options K V} {c : Cache K V} (hnew : new o = .ok c)
    (hpol : o.policy = .slru) (hcost : o.missCost = none) (es : List (Event K V)) :
    Always noted SegmentsKept (c, []) es := by
  have hstart : ∃ xs, Told (c, []) xs := by
    refine ⟨[], (Held.new hnew (by simp [hpol])).toReady, ?_, ?_, ⟨[], [], rfl, ?_, rfl, rfl⟩, ?_⟩
    · obtain ⟨maxEntries, inflight, maxWeight, pool, rfl, -⟩ := new_eq_initial hnew
      exact hpol
    · obtain ⟨maxEntries, inflight, maxWeight, pool, rfl, -⟩ := new_eq_initial hnew
      exact hcost
    · obtain ⟨maxEntries, inflight, maxWeight, pool, rfl, -⟩ := new_eq_initial hnew
      rfl
    · intro before k after hsplit
      simp at hsplit
  have hstep : ∀ (s : Cache K V × List (Mark K)) ev, (∃ xs, Told s xs) → ∃ xs, Told (noted s ev) xs :=
    fun _ _ ⟨_, h⟩ => h.step
  have hall : Always noted (fun s => ∃ xs, Told s xs) (c, []) es := always_of_step hstep hstart es
  exact hall.mono fun _ ⟨_, h⟩ => h.kept

/-- Three entries at most, of which the used ones are evicted last. -/
theorem slru_keeps_segments_churn :
    let c : Cache ℕ ℕ := initial { policy := .slru, maxEntries := some 3 } (some 3) 3 none (some 1000)
    Always noted SegmentsKept (c, []) [.set 1 10 none none 1, .get 1 2, .set 2 20 (some (.ms 3)) none 3,
      .set 3 30 none none 4, .set 4 40 none none 5, .touch 4 none 5, .set 3 31 none none 6, .set 5 50 none none 7,
      .cleanupExpiredUpTo none 9, .setMany [(6, 60), (3, 32)] none none 10, .delete 6, .resize (some 1) none,
      .evict 1] :=
  slru_keeps_segments (o := { policy := .slru, maxEntries := some 3 }) rfl rfl rfl _

end PerformanceHelpers.PowerCache
