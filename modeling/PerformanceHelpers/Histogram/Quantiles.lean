import PerformanceHelpers.Histogram.Buckets

/- The quantiles of a sketch (`src/helpers/powerHistogram.js`).

   The exact value of a quantile is the one at its rank in the list of all values, sorted. A query
   reads a quantile up to 1 as a fraction and any other as a percentage, so the answers do not grow
   with the argument: `percentile(1)` is the greatest value, and `percentile(2)` is not.

   What is proved:
     1. `valueOfRank_spec` — a rank above those of the zeros finds the bucket its exact value is in,
        or the infinities.
     2. `percentile_exact` — so every answer is as near to the exact value as the accuracy says, and
        the answers grow with the percentage that is read. -/
namespace PerformanceHelpers.Histogram

def Value.toTop {K : Type} : Value K → WithTop K
  | .finite x => x
  | _ => ⊤

section
variable {K : Type} [Field K] [LinearOrder K] [FloorRing K]

/-- The exact value of `p` per cent: the one at that rank of the sorted list. -/
def exactValue (vs : List (Value K)) (p : K) : Option (WithTop K) :=
  (ranked (vs.map Value.toTop))[⌈p / 100 * vs.length⌉₊ - 1]?

omit [FloorRing K] in
/-- An answer within the relative error of the exact value, and of its sign. -/
def Near (alpha : K) (e : WithTop K) (v : Value K) : Prop :=
  (e = ⊤ ∧ v = .infinity) ∨
    ∃ x y : K, e = x ∧ v = .finite y ∧ |y - x| ≤ alpha * x ∧ (0 < y ↔ 0 < x)

omit [Field K] [FloorRing K] in
/-- An answer that is infinite, or between the least value and the greatest. -/
def Clamped (h : Histogram K) (v : Value K) : Prop :=
  v.lt h.min = false ∧ (v = .infinity ∨ h.max.lt v = false)

/-- What `percentile` answers for `p` per cent. -/
def answer (m : Maths K) (h : Histogram K) (p : K) : Value K :=
  if p = 0 then h.min
  else if 0 < h.zeroCount ∧ p / 100 * h.count ≤ h.zeroCount then .finite 0
  else (valueOfRank m h (p / 100 * h.count)).2

omit [FloorRing K] in
theorem percentile_answer {m : Maths K} {h : Histogram K} (hcount : h.count ≠ 0) {q : K} (hq : 0 ≤ q) :
    (percentile m h (.finite q)).2 = .ok (some (answer m h (percent q))) := by
  unfold percentile answer
  rw [if_neg hcount]
  dsimp only
  rw [if_neg hq.not_gt]
  split
  · rfl
  split <;> rfl

end

/-! ## Counts of the values -/

section
variable {K : Type} [Field K] [LinearOrder K] [FloorRing K] {m : Maths K} {h : Histogram K} {vs : List (Value K)}

omit [Field K] [LinearOrder K] [FloorRing K] in
/-- What does not hold of infinity is counted among the finite values. -/
theorem countP_toTop {p : WithTop K → Bool} (hp : p ⊤ = false) :
    (vs.map Value.toTop).countP p = (finites vs).countP fun x => p (x : K) := by
  induction vs with
  | nil => rfl
  | cons v vs ih =>
    rw [List.map_cons, List.countP_cons, ih]
    cases v with
    | finite x => exact List.countP_cons.symm
    | _ =>
      show _ + (if p ⊤ = true then 1 else 0) = _
      rw [hp]
      rfl

omit [FloorRing K] [Field K] [LinearOrder K] in
theorem mem_toTop {x : K} : (x : WithTop K) ∈ vs.map Value.toTop ↔ x ∈ finites vs := by
  rw [mem_finites, List.mem_map]
  constructor
  · rintro ⟨v, hv, hx⟩
    cases v with
    | finite y =>
      obtain rfl : y = x := WithTop.coe_injective hx
      exact hv
    | _ => exact absurd hx WithTop.top_ne_coe
  · exact fun hx => ⟨_, hx, rfl⟩

/-- A value at the rank `t`: fewer values are below it, and as many are up to it. -/
structure AtRank (vs : List (Value K)) (e : WithTop K) (t : K) : Prop where
  mem : e ∈ vs.map Value.toTop
  below : (((vs.map Value.toTop).countP fun w => decide (w < e) : ℕ) : K) < t
  upTo : t ≤ ((vs.map Value.toTop).countP fun w => decide (w ≤ e) : ℕ)

omit [FloorRing K] in
/-- Where the infinities are, all finite values are below. -/
theorem AtRank.length_lt {t : K} (he : AtRank vs ⊤ t) : ((finites vs).length : K) < t := by
  have hbelow := he.below
  have hall : ((vs.map Value.toTop).countP fun w => decide (w < ⊤)) = (finites vs).length := by
    rw [countP_toTop (by simp), List.countP_eq_length]
    intro x _
    simp
  rwa [hall] at hbelow

omit [FloorRing K] in
theorem AtRank.finite {t x : K} (he : AtRank vs x t) : x ∈ finites vs ∧
    (((finites vs).countP fun y => decide (y < x) : ℕ) : K) < t ∧
    t ≤ ((finites vs).countP fun y => decide (y ≤ x) : ℕ) := by
  have hbelow := he.below
  have hupTo := he.upTo
  rw [countP_toTop (by simp)] at hbelow hupTo
  simp only [WithTop.coe_lt_coe, WithTop.coe_le_coe] at hbelow hupTo
  exact ⟨mem_toTop.mp he.mem, hbelow, hupTo⟩

variable [IsStrictOrderedRing K]

theorem exactValue_atRank {p : K} (hp : 0 < p) (h100 : p ≤ 100) (hne : vs ≠ []) :
    ∃ e, exactValue vs p = some e ∧ AtRank vs e (p / 100 * vs.length) := by
  have hlength : 0 < vs.length := List.length_pos_of_ne_nil hne
  have hpos : (0 : K) < p / 100 * vs.length := by
    have : (0 : K) < vs.length := by exact_mod_cast hlength
    positivity
  have hle : p / 100 * vs.length ≤ (vs.length : K) := by
    have : p / 100 ≤ 1 := by
      rw [div_le_one (by norm_num)]
      exact h100
    exact mul_le_of_le_one_left (Nat.cast_nonneg _) this
  have hceil : 0 < ⌈p / 100 * vs.length⌉₊ := Nat.ceil_pos.mpr hpos
  have hceil_le : ⌈p / 100 * vs.length⌉₊ ≤ vs.length := Nat.ceil_le.mpr hle
  have hranked : (ranked (vs.map Value.toTop)).length = vs.length := by
    rw [(ranked_perm _).length_eq, List.length_map]
  obtain ⟨e, he⟩ : ∃ e, exactValue vs p = some e := by
    refine ⟨_, List.getElem?_eq_getElem ?_⟩
    rw [hranked]
    omega
  refine ⟨e, he, mem_of_ranked he, ?_, ?_⟩
  · have hbelow := countP_lt_ranked he
    exact Nat.lt_ceil.mp (by omega)
  · have hupTo := lt_countP_le_ranked he
    exact Nat.ceil_le.mp (by omega)

end

/-! ## The answers -/

section
variable {h : Histogram ℝ} {vs : List (Value ℝ)} {e : WithTop ℝ} {t x : ℝ}

/-- The bucket that a rank above those of the zeros finds. -/
structure Found (h : Histogram ℝ) (vs : List (Value ℝ)) (t : ℝ) (i : ℤ) : Prop where
  occupied : ∃ x ∈ finites vs, x ≠ 0 ∧ index exact h x = i
  below : (before exact h vs i : ℝ) < t
  upTo : t ≤ before exact h vs (i + 1)

theorem valueOfRank_spec (hs : Summarizes exact h vs) (hzero : (h.zeroCount : ℝ) < t) :
    (∃ i, Found h vs t i ∧ (valueOfRank exact h t).2 = clamp h (.finite (valueAt exact h i))) ∨
      ((finites vs).length < t ∧
        (valueOfRank exact h t).2 = if 0 < h.infCount then .infinity else h.max) := by
  obtain ⟨o, ho⟩ : ∃ o, orderOf h.buckets = o := ⟨_, rfl⟩
  have hreach : ∀ i j, i ≤ j → j < o.indices.length →
      decide (t ≤ ((h.zeroCount + o.cumulative.getD (i + 1) 0 : ℕ) : ℝ)) = true →
      decide (t ≤ ((h.zeroCount + o.cumulative.getD (j + 1) 0 : ℕ) : ℝ)) = true := by
    intro i j hij hj hi
    rw [decide_eq_true_eq] at hi ⊢
    refine hi.trans ?_
    rw [← ho, hs.counted_take (by rw [ho]; omega), hs.counted_take (by rw [ho]; omega), Nat.cast_le]
    apply List.countP_mono_left
    intro x _ hx
    simp only [decide_eq_true_eq] at hx ⊢
    exact hx.imp_right fun hmem => List.take_subset_take_left _ (by omega) hmem
  obtain ⟨lo, hlo⟩ : ∃ lo, search (fun mid => decide (t ≤ ((h.zeroCount + o.cumulative.getD (mid + 1) 0 : ℕ) : ℝ)))
      o.indices.length 0 o.indices.length = lo := ⟨_, rfl⟩
  have hcut := hlo ▸ search_cut hreach
  have hvalue : (valueOfRank exact h t).2 = (o.indices[lo]?).elim (if 0 < h.infCount then .infinity else h.max)
      fun i => clamp h (.finite (valueAt exact h i)) := by
    unfold valueOfRank
    rw [bucketOrder_eq hs.order]
    dsimp only
    rw [ho, hlo]
    cases o.indices[lo]? <;> rfl
  -- the place before, or the zeros, does not reach the rank
  have hbelow : ((h.zeroCount + o.cumulative.getD lo 0 : ℕ) : ℝ) < t := by
    cases lo with
    | zero =>
      rw [← ho, cumulative_getD (Nat.zero_le _)]
      simpa using hzero
    | succ lo =>
      have hno := hcut.below lo (Nat.lt_succ_self lo)
      exact not_le.mp (of_decide_eq_false hno)
  rw [hvalue]
  cases hi : o.indices[lo]? with
  | none =>
    right
    have hend : lo = o.indices.length := le_antisymm hcut.le (List.getElem?_eq_none_iff.mp hi)
    rw [hend, ← ho, hs.counted_all] at hbelow
    exact ⟨hbelow, rfl⟩
  | some i =>
    left
    obtain ⟨hlt, -⟩ := List.getElem?_eq_some_iff.mp hi
    have hyes := of_decide_eq_true (hcut.above lo le_rfl hlt)
    have hi : (orderOf h.buckets).indices[lo]? = some i := by rw [ho, hi]
    obtain ⟨hsplit, hsplit'⟩ := indices_split hs.buckets hi
    obtain ⟨hnext, hnext'⟩ := indices_split_succ hs.buckets hi
    rw [← ho] at hbelow hyes
    rw [hs.counted (by rw [ho]; omega) hsplit hsplit'] at hbelow
    rw [hs.counted (by rw [ho]; omega) hnext hnext'] at hyes
    refine ⟨i, ⟨?_, hbelow, hyes⟩, rfl⟩
    have hoccupied := (mem_indices hs.buckets).mp (List.mem_of_getElem? hi)
    obtain ⟨x, hx, hindex⟩ := List.countP_pos_iff.mp (Nat.pos_of_ne_zero hoccupied)
    exact ⟨x, hx, of_decide_eq_true hindex⟩

theorem Found.index_eq (hs : Sketch exact h vs) {i : ℤ} (hf : Found h vs t i) (he : AtRank vs e t) :
    ∃ x : ℝ, e = x ∧ x ∈ finites vs ∧ 0 < x ∧ index exact h x = i := by
  have hsum := hs.summarizes
  induction e using WithTop.recTopCoe with
  | top =>
    have hlength : (before exact h vs (i + 1) : ℝ) ≤ (finites vs).length := Nat.cast_le.mpr (before_le _)
    linarith [hf.upTo, he.length_lt]
  | coe x =>
    obtain ⟨hx, hbelow, hupTo⟩ := he.finite
    -- with its bucket below, the values up to it are too few
    have hi : ¬(x = 0 ∨ index exact h x < i) := by
      intro hlow
      have hsub : ((finites vs).countP fun y => decide (y ≤ x)) ≤ before exact h vs i := by
        apply List.countP_mono_left
        intro y hy hyx
        simp only [decide_eq_true_eq] at hyx ⊢
        rcases (hs.nonneg hy).eq_or_lt with rfl | hpos
        · exact Or.inl rfl
        · rcases hlow with rfl | hlow
          · exact absurd hyx hpos.not_ge
          · exact Or.inr ((index_mono hsum hpos hyx).trans_lt hlow)
      have hcast : (((finites vs).countP fun y => decide (y ≤ x) : ℕ) : ℝ) ≤ before exact h vs i := Nat.cast_le.mpr hsub
      linarith [hf.below]
    rw [not_or, not_lt] at hi
    have hpos : 0 < x := lt_of_le_of_ne (hs.nonneg hx) (Ne.symm hi.1)
    refine ⟨x, rfl, hx, hpos, le_antisymm ?_ hi.2⟩
    -- with its bucket above, the values below it are too many
    by_contra hhigh
    have hsub : before exact h vs (i + 1) ≤ (finites vs).countP fun y => decide (y < x) := by
      apply List.countP_mono_left
      intro y hy hyi
      simp only [decide_eq_true_eq] at hyi ⊢
      rcases hyi with rfl | hyi
      · exact hpos
      · by_contra hle
        have := index_mono hsum hpos (not_lt.mp hle)
        omega
    have hcast : (before exact h vs (i + 1) : ℝ) ≤ ((finites vs).countP fun y => decide (y < x) : ℕ) := Nat.cast_le.mpr hsub
    linarith [hf.upTo]

theorem clamp_eq (hcount : h.count ≠ 0) {lo hi : ℝ} (hb : Bounds h vs lo hi) (y : ℝ) :
    clamp h (.finite y) = .finite (max lo (min hi y)) := by
  have hle : lo ≤ hi := hb.lo_le hi hb.hi_mem
  unfold clamp
  rw [if_neg hcount, hb.min, hb.max]
  show (if decide (y < lo) = true then _ else if decide (hi < y) = true then _ else _) = _
  simp only [decide_eq_true_eq]
  split
  · next hlow => rw [min_eq_right (hlow.le.trans hle), max_eq_left hlow.le]
  · next hlow =>
    split
    · next hhigh => rw [min_eq_left hhigh.le, max_eq_right hle]
    · next hhigh => rw [min_eq_right (not_lt.mp hhigh), max_eq_right (not_lt.mp hlow)]

/-- A clamp moves an estimate towards what is within its bounds. -/
theorem abs_clamp_sub_le {lo hi x y : ℝ} (hlo : lo ≤ x) (hhi : x ≤ hi) : |max lo (min hi y) - x| ≤ |y - x| := by
  calc |max lo (min hi y) - x| = |max (min hi y) lo - max x lo| := by rw [max_comm, max_eq_left hlo]
    _ ≤ |min hi y - x| := abs_max_sub_max_le_abs _ _ _
    _ = |min y hi - min x hi| := by rw [min_comm, min_eq_left hhi]
    _ ≤ max |y - x| |hi - hi| := abs_min_sub_min_le_max _ _ _ _
    _ = |y - x| := by rw [sub_self, abs_zero, max_eq_left (abs_nonneg _)]

/-- An estimate within the relative error has the sign of the value. -/
theorem near_of_le (hs : Summarizes exact h vs) {x y : ℝ} (hx : 0 ≤ x) (hle : |y - x| ≤ h.alpha * x) :
    Near h.alpha (x : WithTop ℝ) (.finite y) := by
  refine Or.inr ⟨x, y, rfl, rfl, hle, ?_⟩
  have hone := hs.alpha_lt
  rw [abs_le] at hle
  constructor
  · intro hy
    by_contra hneg
    obtain rfl : x = 0 := le_antisymm (not_lt.mp hneg) hx
    linarith [hle.2]
  · intro hpos
    have := mul_lt_of_lt_one_left hpos hone
    linarith [hle.1]

theorem Bounds.clamped {lo hi y : ℝ} (hb : Bounds h vs lo hi) (hlo : lo ≤ y) (hhi : y ≤ hi) :
    Clamped h (.finite y) := by
  refine ⟨?_, Or.inr ?_⟩
  · rw [hb.min]
    exact decide_eq_false hlo.not_gt
  · rw [hb.max]
    exact decide_eq_false hhi.not_gt

theorem clamped_infinity (h : Histogram ℝ) : Clamped h .infinity := by
  refine ⟨?_, Or.inl rfl⟩
  cases h.min <;> rfl

section
variable (hs : Sketch exact h vs)
include hs

theorem least_near (hne : vs ≠ []) :
    ∃ e, exactValue vs (0 : ℝ) = some e ∧ Near h.alpha e h.min ∧ Clamped h h.min := by
  have hsum := hs.summarizes
  obtain ⟨e, he⟩ : ∃ e, (ranked (vs.map Value.toTop))[0]? = some e := by
    refine ⟨_, List.getElem?_eq_getElem ?_⟩
    rw [(ranked_perm _).length_eq, List.length_map]
    exact List.length_pos_of_ne_nil hne
  have hexact : exactValue vs (0 : ℝ) = some e := by
    unfold exactValue
    rw [zero_div, zero_mul, Nat.ceil_zero]
    exact he
  have hmem := mem_of_ranked he
  refine ⟨e, hexact, ?_⟩
  cases hfinites : finites vs with
  | nil =>
    rw [hsum.min_infinity hfinites]
    induction e using WithTop.recTopCoe with
    | top => exact ⟨Or.inl ⟨rfl, rfl⟩, clamped_infinity h⟩
    | coe x =>
      rw [mem_toTop, hfinites] at hmem
      exact absurd hmem List.not_mem_nil
  | cons x xs =>
    obtain ⟨lo, hi, hb⟩ := hsum.bounds (x := x) (by rw [hfinites]; exact List.mem_cons_self)
    obtain ⟨j, hj⟩ := List.mem_iff_getElem?.mp ((ranked_perm _).mem_iff.mpr (mem_toTop.mpr hb.lo_mem))
    have hle : e ≤ (lo : WithTop ℝ) := ranked_le he hj (Nat.zero_le j)
    induction e using WithTop.recTopCoe with
    | top => exact absurd hle (by simp)
    | coe y =>
      obtain rfl : y = lo := le_antisymm (WithTop.coe_le_coe.mp hle) (hb.lo_le y (mem_toTop.mp hmem))
      have hpos := hs.nonneg hb.lo_mem
      rw [hb.min]
      refine ⟨near_of_le hsum hpos ?_, hb.clamped le_rfl (hb.le_hi _ hb.lo_mem)⟩
      rw [sub_self, abs_zero]
      exact mul_nonneg hsum.alpha_pos.le hpos

theorem zeros_near (hsome : 0 < h.zeroCount) (hle : t ≤ h.zeroCount)
    (hrank : AtRank vs e t) : Near h.alpha e (.finite 0) ∧ Clamped h (.finite 0) := by
  have hsum := hs.summarizes
  rw [hsum.zeroCount] at hsome hle
  obtain ⟨y, hy, hzero⟩ := List.countP_pos_iff.mp hsome
  obtain rfl : y = 0 := of_decide_eq_true hzero
  obtain ⟨lo, hi, hb⟩ := hsum.bounds hy
  refine ⟨?_, hb.clamped (hb.lo_le _ hy) (hb.le_hi _ hy)⟩
  suffices he : e = ((0 : ℝ) : WithTop ℝ) by
    rw [he]
    exact near_of_le hsum le_rfl (by simp)
  induction e using WithTop.recTopCoe with
  | top =>
    have hlength : (((finites vs).countP (· = 0) : ℕ) : ℝ) ≤ (finites vs).length :=
      Nat.cast_le.mpr List.countP_le_length
    linarith [hrank.length_lt]
  | coe x =>
    obtain ⟨hx, hbelow, -⟩ := hrank.finite
    rcases (hs.nonneg hx).eq_or_lt with rfl | hpos
    · rfl
    · -- above the zeros, at least these would be below it
      have hsub : (finites vs).countP (· = 0) ≤ (finites vs).countP fun y => decide (y < x) := by
        apply List.countP_mono_left
        intro y _ hy
        simp only [decide_eq_true_eq] at hy ⊢
        exact hy ▸ hpos
      have hcast : (((finites vs).countP (· = 0) : ℕ) : ℝ) ≤ ((finites vs).countP fun y => decide (y < x) : ℕ) :=
        Nat.cast_le.mpr hsub
      linarith

/-- Where the finite values are too few for a rank, there are infinities. -/
theorem infCount_pos (hfew : (finites vs).length < t) (ht : t ≤ h.count) :
    0 < h.infCount := by
  have hlength := hs.length_eq
  have hlt : ((finites vs).length : ℝ) < h.count := hfew.trans_le ht
  rw [Nat.cast_lt, hs.summarizes.count] at hlt
  omega

theorem rank_near (hcount : h.count ≠ 0) (habove : (h.zeroCount : ℝ) < t)
    (ht : t ≤ h.count) (hrank : AtRank vs e t) :
    Near h.alpha e (valueOfRank exact h t).2 ∧ Clamped h (valueOfRank exact h t).2 := by
  have hsum := hs.summarizes
  rcases valueOfRank_spec hsum habove with ⟨i, hf, hvalue⟩ | ⟨hfew, hvalue⟩
  · obtain ⟨x, rfl, hx, hpos, rfl⟩ := hf.index_eq hs hrank
    obtain ⟨lo, hi, hb⟩ := hsum.bounds hx
    rw [hvalue, clamp_eq hcount hb]
    constructor
    · apply near_of_le hsum hpos.le
      exact (abs_clamp_sub_le (hb.lo_le x hx) (hb.le_hi x hx)).trans (valueAt_near hsum hpos)
    · exact hb.clamped (le_max_left _ _) (max_le (hb.lo_le _ hb.hi_mem) (min_le_left _ _))
  · rw [hvalue, if_pos (infCount_pos hs hfew ht)]
    refine ⟨Or.inl ⟨?_, rfl⟩, clamped_infinity h⟩
    induction e using WithTop.recTopCoe with
    | top => rfl
    | coe x =>
      obtain ⟨-, -, hupTo⟩ := hrank.finite
      have hlength : (((finites vs).countP fun y => decide (y ≤ x) : ℕ) : ℝ) ≤ (finites vs).length :=
        Nat.cast_le.mpr List.countP_le_length
      linarith

end

/-- A rank that is not among the zeros is above them. -/
theorem zeros_lt (hpos : 0 < t) (hzeros : ¬(0 < h.zeroCount ∧ t ≤ h.zeroCount)) : (h.zeroCount : ℝ) < t := by
  by_contra hle
  rw [not_lt] at hle
  refine hzeros ⟨Nat.pos_of_ne_zero fun hnone => ?_, hle⟩
  rw [hnone, Nat.cast_zero] at hle
  exact absurd hpos hle.not_gt

theorem rank_pos (hcount : h.count ≠ 0) {p : ℝ} (h0 : 0 < p) : 0 < p / 100 * (h.count : ℝ) := by
  have hn : (0 : ℝ) < h.count := by exact_mod_cast Nat.pos_of_ne_zero hcount
  positivity

theorem rank_le {p : ℝ} (h100 : p ≤ 100) : p / 100 * (h.count : ℝ) ≤ h.count := by
  refine mul_le_of_le_one_left (Nat.cast_nonneg _) ?_
  rw [div_le_one (by norm_num)]
  exact h100

theorem Summarizes.count_ne (hs : Summarizes exact h vs) (hne : vs ≠ []) : h.count ≠ 0 := by
  rw [hs.count]
  exact (List.length_pos_of_ne_nil hne).ne'

/-- A query answers near the exact value, and within the bounds. -/
theorem answer_near (hs : Sketch exact h vs) (hne : vs ≠ []) {p : ℝ} (h0 : 0 ≤ p) (h100 : p ≤ 100) :
    ∃ e, exactValue vs p = some e ∧ Near h.alpha e (answer exact h p) ∧ Clamped h (answer exact h p) := by
  have hcount := hs.summarizes.count_ne hne
  unfold answer
  split
  next hzero =>
    rw [hzero]
    exact least_near hs hne
  next hzero =>
  have hpos : 0 < p := lt_of_le_of_ne h0 (Ne.symm hzero)
  obtain ⟨e, hexact, hrank⟩ := exactValue_atRank hpos h100 hne
  rw [← hs.summarizes.count] at hrank
  refine ⟨e, hexact, ?_⟩
  split
  next hzeros => exact zeros_near hs hzeros.1 hzeros.2 hrank
  next hzeros => exact rank_near hs hcount (zeros_lt (rank_pos hcount hpos) hzeros) (rank_le h100) hrank

/-! ## The order of the answers -/

/-- A bucket that a higher rank finds is not below. -/
theorem Found.mono {t' : ℝ} {i i' : ℤ} (hf : Found h vs t i) (hf' : Found h vs t' i') (htt : t ≤ t') : i ≤ i' := by
  by_contra hlt
  have hmono : (before exact h vs (i' + 1) : ℝ) ≤ before exact h vs i := Nat.cast_le.mpr (before_mono (by omega))
  linarith [hf.below, hf'.upTo]

theorem valueOfRank_mono (hs : Sketch exact h vs) (hcount : h.count ≠ 0) {t' : ℝ} (habove : (h.zeroCount : ℝ) < t)
    (htt : t ≤ t') (ht' : t' ≤ h.count) :
    (valueOfRank exact h t').2.lt (valueOfRank exact h t).2 = false := by
  have hsum := hs.summarizes
  rcases valueOfRank_spec hsum (habove.trans_le htt) with ⟨i', hf', hvalue'⟩ | ⟨hfew', hvalue'⟩
  · rcases valueOfRank_spec hsum habove with ⟨i, hf, hvalue⟩ | ⟨hfew, hvalue⟩
    · obtain ⟨x, hx, -⟩ := hf.occupied
      obtain ⟨lo, hi, hb⟩ := hsum.bounds hx
      rw [hvalue, hvalue', clamp_eq hcount hb, clamp_eq hcount hb]
      apply decide_eq_false
      have hle := valueAt_mono hsum (hf.mono hf' htt)
      exact (max_le_max_left lo (min_le_min_left hi hle)).not_gt
    · have hlength : (before exact h vs (i' + 1) : ℝ) ≤ (finites vs).length := Nat.cast_le.mpr (before_le _)
      linarith [hf'.upTo]
  · rw [hvalue', if_pos (infCount_pos hs hfew' ht')]
    cases (valueOfRank exact h t).2 <;> rfl

theorem answer_mono (hs : Sketch exact h vs) (hne : vs ≠ []) {p p' : ℝ} (h0 : 0 ≤ p) (hpp : p ≤ p') (h100 : p' ≤ 100) :
    (answer exact h p').lt (answer exact h p) = false := by
  have hcount := hs.summarizes.count_ne hne
  obtain ⟨-, -, -, hclamped⟩ := answer_near hs hne (h0.trans hpp) h100
  by_cases hzero : p = 0
  · have hleast : answer exact h p = h.min := by
      unfold answer
      rw [if_pos hzero]
    rw [hleast]
    exact hclamped.1
  have hpos : 0 < p := lt_of_le_of_ne h0 (Ne.symm hzero)
  have hmore : p / 100 * (h.count : ℝ) ≤ p' / 100 * h.count := by gcongr
  by_cases hzeros : 0 < h.zeroCount ∧ p / 100 * (h.count : ℝ) ≤ h.zeroCount
  · have hanswer : answer exact h p = .finite 0 := by
      unfold answer
      rw [if_neg hzero, if_pos hzeros]
    have hsome := hzeros.1
    rw [hs.summarizes.zeroCount] at hsome
    obtain ⟨y, hy, -⟩ := List.countP_pos_iff.mp hsome
    obtain ⟨lo, hi, hb⟩ := hs.summarizes.bounds hy
    have hleast := hclamped.1
    rw [hanswer]
    rw [hb.min] at hleast
    cases hvalue : answer exact h p' with
    | finite z =>
      rw [hvalue] at hleast
      have hlo := not_lt.mp (of_decide_eq_false hleast)
      exact decide_eq_false ((hs.nonneg hb.lo_mem).trans hlo).not_gt
    | negInfinity =>
      rw [hvalue] at hleast
      cases hleast
    | _ => rfl
  · have hzeros' : ¬(0 < h.zeroCount ∧ p' / 100 * (h.count : ℝ) ≤ h.zeroCount) :=
      fun hboth => hzeros ⟨hboth.1, hmore.trans hboth.2⟩
    unfold answer
    rw [if_neg hzero, if_neg (hpos.trans_le hpp).ne', if_neg hzeros, if_neg hzeros']
    exact valueOfRank_mono hs hcount (zeros_lt (rank_pos hcount hpos) hzeros) hmore (rank_le h100)

theorem percent_nonneg {q : ℝ} (hq : 0 ≤ q) : 0 ≤ percent q := by
  unfold percent
  apply le_min (by norm_num)
  split
  · positivity
  · exact hq

end

/-- Of any sketch of some values, every quantile from 0 to 100 is within the relative error of the
value of its rank in the sorted list, of its sign and between the least and the greatest; and of two
quantiles, the one that is read as the higher percentage is not answered below the other. -/
theorem percentile_exact {h : Histogram ℝ} {vs : List (Value ℝ)} (hs : Sketch exact h vs) (hne : vs ≠ []) :
    (∀ q, 0 ≤ q → ∃ e v, exactValue vs (percent q) = some e ∧
      (percentile exact h (.finite q)).2 = .ok (some v) ∧ Near h.alpha e v ∧ Clamped h v) ∧
    ∀ q q', 0 ≤ q → 0 ≤ q' → percent q ≤ percent q' → ∃ v v', (percentile exact h (.finite q)).2 = .ok (some v) ∧
      (percentile exact h (.finite q')).2 = .ok (some v') ∧ v'.lt v = false := by
  have hcount := hs.summarizes.count_ne hne
  constructor
  · intro q h0
    obtain ⟨e, hexact, hnear⟩ := answer_near hs hne (percent_nonneg h0) (min_le_left _ _)
    exact ⟨e, _, hexact, percentile_answer hcount h0, hnear⟩
  · intro q q' h0 h0' hle
    exact ⟨_, _, percentile_answer hcount h0, percentile_answer hcount h0',
      answer_mono hs hne (percent_nonneg h0) hle (min_le_left _ _)⟩

theorem exists_sketch_two : ∃ h : Histogram ℝ, Sketch exact h [.finite 0, .finite 5] := by
  obtain ⟨h, hs, -⟩ := exists_sketch [0, 5] (by norm_num)
  exact ⟨h, hs⟩

theorem percentile_exact_two : ∃ h : Histogram ℝ, Sketch exact h [.finite 0, .finite 5] ∧
    (∀ q, 0 ≤ q → ∃ e v, exactValue [.finite 0, .finite 5] (percent q) = some e ∧
      (percentile exact h (.finite q)).2 = .ok (some v) ∧ Near h.alpha e v ∧ Clamped h v) ∧
    ∀ q q', 0 ≤ q → 0 ≤ q' → percent q ≤ percent q' → ∃ v v', (percentile exact h (.finite q)).2 = .ok (some v) ∧
      (percentile exact h (.finite q')).2 = .ok (some v') ∧ v'.lt v = false := by
  obtain ⟨h, hs⟩ := exists_sketch_two
  exact ⟨h, hs, percentile_exact hs (List.cons_ne_nil _ _)⟩

/-- Of 0 and 5 the answer for 1 is above that for 2: 1 is a fraction, and all of the values. -/
theorem percentile_falls : ∃ h : Histogram ℝ, Sketch exact h [.finite 0, .finite 5] ∧
    ∃ v v', (percentile exact h (.finite 1)).2 = .ok (some v) ∧
      (percentile exact h (.finite 2)).2 = .ok (some v') ∧ v'.lt v = true := by
  obtain ⟨h, hs⟩ := exists_sketch_two
  have hne : [Value.finite (0 : ℝ), .finite 5] ≠ [] := List.cons_ne_nil _ _
  have hcount := hs.summarizes.count_ne hne
  have hzeros : h.zeroCount = 1 := by
    rw [hs.summarizes.zeroCount]
    show List.countP _ [(0 : ℝ), 5] = 1
    simp
  have hpercent : percent (1 : ℝ) = 100 := by norm_num [percent]
  have hpercent' : percent (2 : ℝ) = 2 := by norm_num [percent]
  have hlow : answer exact h 2 = .finite 0 := by
    have hcount : h.count = 2 := hs.summarizes.count
    unfold answer
    rw [if_neg (by norm_num), if_pos]
    rw [hzeros, hcount]
    norm_num
  refine ⟨h, hs, _, _, percentile_answer hcount (by norm_num), percentile_answer hcount (by norm_num), ?_⟩
  rw [hpercent, hpercent', hlow]
  obtain ⟨e, hexact, hnear, -⟩ := answer_near hs hne (p := 100) (by norm_num) le_rfl
  obtain ⟨e', hexact', hrank⟩ := exactValue_atRank (p := 100) (by norm_num) le_rfl hne
  obtain rfl : e = e' := Option.some.inj (hexact.symm.trans hexact')
  obtain ⟨-, hanswer⟩ | ⟨x, y, rfl, hanswer, -, hsign⟩ := hnear
  · rw [hanswer]
    rfl
  · rw [hanswer]
    apply decide_eq_true
    obtain ⟨hx, -, hupTo⟩ := hrank.finite
    apply hsign.mpr
    apply lt_of_le_of_ne (hs.nonneg hx)
    rintro rfl
    -- one value is up to 0, and the rank is the second
    have hone : ((finites [Value.finite (0 : ℝ), .finite 5]).countP fun y => decide (y ≤ 0)) = 1 := by
      show List.countP _ [(0 : ℝ), 5] = 1
      norm_num
    rw [hone] at hupTo
    norm_num at hupTo

end PerformanceHelpers.Histogram
