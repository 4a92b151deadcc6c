import Mathlib.Data.List.GetD
import PerformanceHelpers.Histogram.Buckets

/- The ranks of a sketch (`src/helpers/powerHistogram.js`): how many of its values are at or below
   a threshold.

   A threshold counts the buckets below its own in full, and of its own the share of the
   log-range up to it. So the answer stays between two counts, and a threshold below the least
   value is still answered with a share of a bucket that the two have in common.

   What is proved:
     1. `rankOf_eq` — the answer is the count of the buckets below, and a share of the own.
     2. `countAtOrBelow_between` — so it lies between the count of the values whose bucket is below
        and that of those whose bucket is not above, grows with the threshold, and is none and all
        where the buckets of the values are left. -/
namespace PerformanceHelpers.Histogram

section
variable {K : Type} [Field K] [LinearOrder K] [FloorRing K]

/-- The bucket of a value, in their order: of what is below 0, of 0, of the positive numbers by
their index, of infinity. -/
def place (m : Maths K) (h : Histogram K) : Value K → WithBot (WithBot (WithTop ℤ))
  | .finite t => if t < 0 then ⊥ else ((if t = 0 then ⊥ else ((index m h t : WithTop ℤ) : WithBot (WithTop ℤ)) :
      WithBot (WithTop ℤ)) : WithBot (WithBot (WithTop ℤ)))
  | .infinity => ⊤
  | .negInfinity | .nan => ⊥

/-- The upper edge of the bucket of a number that was recorded. -/
def upperEdge (m : Maths K) (h : Histogram K) (x : K) : K := if x = 0 then 0 else m.pow h.gamma (index m h x)

def share (m : Maths K) (h : Histogram K) (t : K) : K :=
  min 1 (max 0 ((m.log t - (index m h t - 1) * h.logGamma) / h.logGamma))

/-- What `countAtOrBelow` answers. -/
def atOrBelow (m : Maths K) (h : Histogram K) : Value K → K
  | .finite t => if h.count = 0 ∨ t < 0 then 0 else if t = 0 then h.zeroCount else (rankOf m h t).2
  | .infinity => h.count
  | .negInfinity | .nan => 0

theorem countAtOrBelow_eq (m : Maths K) (h : Histogram K) {v : Value K} (hv : v ≠ .nan) :
    (countAtOrBelow m h v).2 = .ok (atOrBelow m h v) := by
  unfold countAtOrBelow atOrBelow
  cases v with
  | finite t =>
    dsimp only
    split
    · rfl
    split <;> rfl
  | nan => exact absurd rfl hv
  | _ => rfl

variable {m : Maths K} {h : Histogram K} {vs : List (Value K)}

@[simp] theorem place_negative {t : K} (ht : t < 0) : place m h (.finite t) = ⊥ := if_pos ht

@[simp] theorem place_zero : place m h (.finite 0) = ((⊥ : WithBot (WithTop ℤ)) : WithBot (WithBot (WithTop ℤ))) := by
  unfold place
  dsimp only
  rw [if_neg (lt_irrefl _), if_pos rfl]

theorem place_positive {t : K} (ht : 0 < t) :
    place m h (.finite t) = (((index m h t : WithTop ℤ) : WithBot (WithTop ℤ)) : WithBot (WithBot (WithTop ℤ))) := by
  unfold place
  dsimp only
  rw [if_neg ht.not_gt, if_neg ht.ne']

/-- The values whose bucket is below that of a positive threshold. -/
theorem place_lt_iff {x t : K} (hx : 0 ≤ x) (ht : 0 < t) :
    place m h (.finite x) < place m h (.finite t) ↔ x = 0 ∨ index m h x < index m h t := by
  rw [place_positive ht]
  rcases hx.eq_or_lt with rfl | hpos
  · rw [place_zero]
    simp
  · rw [place_positive hpos]
    simp [hpos.ne']

theorem place_le_iff {x t : K} (hx : 0 ≤ x) (ht : 0 < t) :
    place m h (.finite x) ≤ place m h (.finite t) ↔ x = 0 ∨ index m h x < index m h t + 1 := by
  rw [place_positive ht, Int.lt_add_one_iff]
  rcases hx.eq_or_lt with rfl | hpos
  · rw [place_zero]
    simp
  · rw [place_positive hpos]
    simp [hpos.ne']

theorem before_succ (k : ℤ) : before m h vs (k + 1) = before m h vs k + inBucket m h.logGamma (finites vs) k := by
  apply countP_or
  · intro x _
    by_cases hx : x = 0
    · simp [hx]
    · simp only [hx, false_or, ne_eq, not_false_eq_true, true_and, Int.lt_add_one_iff, le_iff_lt_or_eq]
      exact Bool.decide_or _ _
  · intro x _ hx
    simp only [decide_eq_true_eq] at hx
    apply decide_eq_false
    rintro ⟨hne, hindex⟩
    rcases hx with hx | hx
    · exact hne hx
    · exact absurd hindex hx.ne

theorem rankOf_eq (hs : Summarizes m h vs) (t : K) :
    (rankOf m h t).2 =
      before m h vs (index m h t) + inBucket m h.logGamma (finites vs) (index m h t) * share m h t := by
  obtain ⟨o, ho⟩ : ∃ o, orderOf h.buckets = o := ⟨_, rfl⟩
  have hmono : ∀ i j, i ≤ j → j < o.indices.length →
      decide (index m h t ≤ o.indices.getD i 0) = true → decide (index m h t ≤ o.indices.getD j 0) = true := by
    intro i j hij hj hi
    have hpair := List.pairwise_iff_getElem.mp (ho ▸ indices_pairwise hs.buckets)
    rw [decide_eq_true_eq] at hi ⊢
    rw [List.getD_eq_getElem _ _ (by omega)] at hi ⊢
    rcases hij.eq_or_lt with rfl | hlt
    · exact hi
    · exact hi.trans (hpair i j (by omega) hj hlt).le
  obtain ⟨lo, hlo⟩ : ∃ lo, search (fun mid => decide (index m h t ≤ o.indices.getD mid 0))
      o.indices.length 0 o.indices.length = lo := ⟨_, rfl⟩
  have hcut := hlo ▸ search_cut hmono
  have hbelow : ∀ i ∈ o.indices.take lo, i < index m h t := by
    intro i hi
    obtain ⟨j, hj, rfl⟩ := List.mem_iff_getElem.mp hi
    rw [List.length_take] at hj
    have hno := hcut.below j (by omega)
    rw [List.getD_eq_getElem _ _ (by omega)] at hno
    rw [List.getElem_take]
    exact not_le.mp (of_decide_eq_false hno)
  have habove : ∀ i ∈ o.indices.drop lo, index m h t ≤ i := by
    intro i hi
    obtain ⟨j, hj, rfl⟩ := List.mem_iff_getElem.mp hi
    rw [List.length_drop] at hj
    have hyes := hcut.above (lo + j) (by omega) (by omega)
    rw [List.getD_eq_getElem _ _ (by omega)] at hyes
    rw [List.getElem_drop]
    exact of_decide_eq_true hyes
  have hcounted : h.zeroCount + o.cumulative.getD lo 0 = before m h vs (index m h t) := by
    subst ho
    exact hs.counted hcut.le hbelow habove
  have hvalue : (rankOf m h t).2 = if o.indices[lo]? = some (index m h t) then
      ((h.zeroCount + o.cumulative.getD lo 0 : ℕ) : K) + EntryMap.count (index m h t) h.buckets * share m h t
      else ((h.zeroCount + o.cumulative.getD lo 0 : ℕ) : K) := by
    unfold rankOf
    rw [bucketOrder_eq hs.order]
    dsimp only
    rw [ho]
    show (if o.indices[search _ _ _ _]? = _ then _ else _) = _
    rw [show search (fun mid => decide (index m { h with order := some o } t ≤ o.indices.getD mid 0))
      o.indices.length 0 o.indices.length = lo from hlo]
    rfl
  rw [hvalue, hcounted, hs.buckets.count]
  split
  · rfl
  · next hmiss =>
    -- no value is in the bucket of the threshold
    have hnone : inBucket m h.logGamma (finites vs) (index m h t) = 0 := by
      by_contra hsome
      have hmem := (mem_indices hs.buckets).mpr hsome
      rw [ho, ← List.take_append_drop lo o.indices, List.mem_append] at hmem
      rcases hmem with hmem | hmem
      · exact absurd (hbelow _ hmem) (lt_irrefl _)
      cases hi : o.indices[lo]? with
      | none =>
        rw [List.drop_eq_nil_of_le (List.getElem?_eq_none_iff.mp hi)] at hmem
        exact absurd hmem List.not_mem_nil
      | some i =>
        obtain ⟨-, hfirst⟩ := indices_split hs.buckets (ho ▸ hi)
        have hin : i ∈ o.indices.drop lo := by
          rw [List.mem_iff_getElem?]
          exact ⟨0, by rw [List.getElem?_drop, Nat.add_zero, hi]⟩
        apply hmiss
        rw [hi, le_antisymm (habove i hin) (hfirst _ (ho ▸ hmem))]
    rw [hnone, Nat.cast_zero, zero_mul, add_zero]

/-! ## The counts around an answer -/

variable [IsStrictOrderedRing K]

section
omit [IsStrictOrderedRing K]

theorem atOrBelow_zero (hs : Summarizes m h vs) : atOrBelow m h (.finite 0) = h.zeroCount := by
  unfold atOrBelow
  dsimp only
  split
  · next hempty =>
    have hcount : h.count = 0 := hempty.resolve_right (lt_irrefl 0)
    have hnil : vs = [] := List.length_eq_zero_iff.mp (hs.count.symm.trans hcount)
    rw [hs.zeroCount, hnil]
    simp
  · rw [if_pos rfl]

theorem atOrBelow_positive (hs : Summarizes m h vs) {t : K} (ht : 0 < t) : atOrBelow m h (.finite t) =
    before m h vs (index m h t) + inBucket m h.logGamma (finites vs) (index m h t) * share m h t := by
  rw [← rankOf_eq hs]
  unfold atOrBelow
  dsimp only
  split
  · next hempty =>
    have hcount : h.count = 0 := hempty.resolve_right ht.not_gt
    have hnil : vs = [] := List.length_eq_zero_iff.mp (hs.count.symm.trans hcount)
    rw [rankOf_eq hs, hnil]
    simp [before, inBucket]
  · rw [if_neg ht.ne']

theorem share_nonneg (t : K) : 0 ≤ share m h t := le_min zero_le_one (le_max_left _ _)

theorem share_le_one (t : K) : share m h t ≤ 1 := min_le_left _ _

end

/-- The answer for a positive threshold never leaves its bucket. -/
theorem atOrBelow_within (hs : Summarizes m h vs) {t : K} (ht : 0 < t) :
    (before m h vs (index m h t) : K) ≤ atOrBelow m h (.finite t) ∧
      atOrBelow m h (.finite t) ≤ before m h vs (index m h t + 1) := by
  have hin : (0 : K) ≤ inBucket m h.logGamma (finites vs) (index m h t) := Nat.cast_nonneg _
  rw [atOrBelow_positive hs ht, before_succ, Nat.cast_add]
  constructor
  · exact le_add_of_nonneg_right (mul_nonneg hin (share_nonneg t))
  · gcongr
    exact mul_le_of_le_one_right hin (share_le_one t)

omit [IsStrictOrderedRing K] in
theorem zeros_le_before (hs : Summarizes m h vs) (k : ℤ) : h.zeroCount ≤ before m h vs k := by
  rw [hs.zeroCount]
  apply List.countP_mono_left
  intro x _ hx
  exact decide_eq_true (Or.inl (of_decide_eq_true hx))

theorem atOrBelow_nonneg (hs : Summarizes m h vs) (v : Value K) : 0 ≤ atOrBelow m h v := by
  cases v with
  | finite t =>
    rcases lt_trichotomy t 0 with hneg | rfl | hpos
    · unfold atOrBelow
      dsimp only
      rw [if_pos (Or.inr hneg)]
    · rw [atOrBelow_zero hs]
      exact Nat.cast_nonneg _
    · exact (Nat.cast_nonneg _).trans (atOrBelow_within hs hpos).1
  | infinity => exact Nat.cast_nonneg _
  | _ => exact le_rfl

/-- An answer lies between the values whose bucket is below that of the threshold, and those whose
bucket is not above. -/
theorem atOrBelow_between (hs : Sketch m h vs) (v : Value K) :
    ((vs.countP fun w => decide (place m h w < place m h v) : ℕ) : K) ≤ atOrBelow m h v ∧
      (v ≠ .nan → atOrBelow m h v ≤ (vs.countP fun w => decide (place m h w ≤ place m h v) : ℕ)) := by
  have hsum := hs.summarizes
  have hbottom : ∀ w, place m h w = ⊥ → vs.countP (fun u => decide (place m h u < place m h w)) = 0 := by
    intro w hw
    rw [List.countP_eq_zero]
    intro u _
    simp [hw]
  cases v with
  | finite t =>
    rcases lt_trichotomy t 0 with hneg | rfl | hpos
    · have hzero : atOrBelow m h (.finite t) = 0 := by
        unfold atOrBelow
        dsimp only
        rw [if_pos (Or.inr hneg)]
      rw [hbottom _ (place_negative hneg), hzero]
      exact ⟨Nat.cast_zero.le, fun _ => Nat.cast_nonneg _⟩
    · rw [atOrBelow_zero hsum, hs.countP_eq, hs.countP_eq, hsum.zeroCount, place_zero]
      constructor
      · rw [Nat.cast_le, if_neg (by simp [place]), Nat.add_zero]
        apply List.countP_mono_left
        intro x hx hlt
        rcases (hs.nonneg hx).eq_or_lt with rfl | hpos
        · simp at hlt
        · rw [place_positive hpos] at hlt
          simp at hlt
      · intro _
        rw [Nat.cast_le]
        refine le_trans ?_ (Nat.le_add_right _ _)
        apply List.countP_mono_left
        intro x _ hx
        rw [of_decide_eq_true hx, place_zero]
        exact decide_eq_true le_rfl
    · have hbelow : vs.countP (fun w => decide (place m h w < place m h (.finite t))) = before m h vs (index m h t) := by
        rw [hs.countP_eq, if_neg (by rw [place_positive hpos]; simp [place]), Nat.add_zero]
        apply List.countP_congr
        intro x hx
        rw [decide_eq_true_eq, decide_eq_true_eq]
        exact place_lt_iff (hs.nonneg hx) hpos
      have hupTo : vs.countP (fun w => decide (place m h w ≤ place m h (.finite t))) =
          before m h vs (index m h t + 1) := by
        rw [hs.countP_eq, if_neg (by rw [place_positive hpos]; simp [place]), Nat.add_zero]
        apply List.countP_congr
        intro x hx
        rw [decide_eq_true_eq, decide_eq_true_eq]
        exact place_le_iff (hs.nonneg hx) hpos
      rw [hbelow, hupTo]
      exact ⟨(atOrBelow_within hsum hpos).1, fun _ => (atOrBelow_within hsum hpos).2⟩
  | infinity =>
    have hall : vs.countP (fun w => decide (place m h w ≤ place m h .infinity)) = vs.length := by
      rw [List.countP_eq_length]
      intro w _
      exact decide_eq_true le_top
    rw [hall]
    show _ ≤ (h.count : K) ∧ (_ → (h.count : K) ≤ _)
    rw [hsum.count]
    exact ⟨Nat.cast_le.mpr List.countP_le_length, fun _ => le_rfl⟩
  | negInfinity =>
    rw [hbottom _ rfl]
    exact ⟨Nat.cast_zero.le, fun _ => Nat.cast_nonneg _⟩
  | nan =>
    rw [hbottom _ rfl]
    exact ⟨Nat.cast_zero.le, fun hne => absurd rfl hne⟩

end

/-! ## The order of the answers -/

section
variable {h : Histogram ℝ} {vs : List (Value ℝ)} {t t' : ℝ}

theorem share_mono (hs : Summarizes exact h vs) (ht : 0 < t) (htt : t ≤ t') (hsame : index exact h t = index exact h t') :
    share exact h t ≤ share exact h t' := by
  have hlog : Real.log t ≤ Real.log t' := Real.log_le_log ht htt
  have hgamma := hs.logGamma_pos
  unfold share
  rw [hsame]
  have hle : (exact.log t - (index exact h t' - 1) * h.logGamma) / h.logGamma ≤
      (exact.log t' - (index exact h t' - 1) * h.logGamma) / h.logGamma := by
    apply div_le_div_of_nonneg_right _ hgamma.le
    exact sub_le_sub_right hlog _
  exact min_le_min_left 1 (max_le_max_left 0 hle)

/-- At the upper edge of its bucket a threshold has all of it. -/
theorem share_edge (hs : Summarizes exact h vs) (ht : t = h.gamma ^ index exact h t) : share exact h t = 1 := by
  have hgamma := hs.logGamma_pos
  have hlog : Real.log t = index exact h t * h.logGamma := by
    conv_lhs => rw [ht, Real.log_zpow]
    rw [hs.logGamma]
    rfl
  have hone : (exact.log t - (index exact h t - 1) * h.logGamma) / h.logGamma = 1 := by
    show (Real.log t - _) / _ = 1
    rw [hlog, div_eq_one_iff_eq hgamma.ne']
    ring
  unfold share
  rw [hone]
  simp

theorem atOrBelow_positive_mono (hs : Summarizes exact h vs) (ht : 0 < t) (htt : t ≤ t') :
    atOrBelow exact h (.finite t) ≤ atOrBelow exact h (.finite t') := by
  have ht' := ht.trans_le htt
  rcases (index_mono hs ht htt).eq_or_lt with hsame | hlt
  · rw [atOrBelow_positive hs ht, atOrBelow_positive hs ht', hsame]
    have hshare := share_mono hs ht htt hsame
    gcongr
  · calc atOrBelow exact h (.finite t) ≤ before exact h vs (index exact h t + 1) := (atOrBelow_within hs ht).2
      _ ≤ before exact h vs (index exact h t') := Nat.cast_le.mpr (before_mono (by omega))
      _ ≤ atOrBelow exact h (.finite t') := (atOrBelow_within hs ht').1

theorem atOrBelow_mono (hs : Sketch exact h vs) {v v' : Value ℝ} (hv : v ≠ .nan) (hv' : v' ≠ .nan)
    (hle : v'.lt v = false) : atOrBelow exact h v ≤ atOrBelow exact h v' := by
  have hsum := hs.summarizes
  have hzero : ∀ w, atOrBelow exact h w = 0 → atOrBelow exact h w ≤ atOrBelow exact h v' := by
    intro w hw
    rw [hw]
    exact atOrBelow_nonneg hsum v'
  have hall : ∀ w : Value ℝ, w ≠ .nan → atOrBelow exact h w ≤ h.count := by
    intro w hw
    refine ((atOrBelow_between hs w).2 hw).trans ?_
    rw [hsum.count]
    exact Nat.cast_le.mpr List.countP_le_length
  cases v with
  | nan => exact absurd rfl hv
  | negInfinity => exact hzero _ rfl
  | infinity =>
    cases v' with
    | infinity => exact le_rfl
    | nan => exact absurd rfl hv'
    | _ => cases hle
  | finite t =>
    cases v' with
    | nan => exact absurd rfl hv'
    | negInfinity => cases hle
    | infinity => exact hall _ hv
    | finite t' =>
      have htt : t ≤ t' := not_lt.mp (of_decide_eq_false hle)
      rcases lt_trichotomy t 0 with hneg | rfl | hpos
      · apply hzero
        unfold atOrBelow
        dsimp only
        rw [if_pos (Or.inr hneg)]
      · rcases htt.eq_or_lt with rfl | hpos'
        · exact le_rfl
        · rw [atOrBelow_zero hsum]
          exact (Nat.cast_le.mpr (zeros_le_before hsum _)).trans (atOrBelow_within hsum hpos').1
      · exact atOrBelow_positive_mono hsum hpos htt

/-! ## Beyond the values -/

theorem place_mono (hs : Summarizes exact h vs) {x y : ℝ} (hx : 0 ≤ x) (hxy : x ≤ y) :
    place exact h (.finite x) ≤ place exact h (.finite y) := by
  rcases hx.eq_or_lt with rfl | hpos
  · rcases hxy.eq_or_lt with rfl | hpos'
    · exact le_rfl
    · exact ((place_lt_iff le_rfl hpos').mpr (Or.inl rfl)).le
  · rw [place_positive hpos, place_positive (hpos.trans_le hxy)]
    have := index_mono hs hpos hxy
    simpa using this

/-- Below the bucket of the least value there is none. -/
theorem atOrBelow_below (hs : Sketch exact h vs) {v : Value ℝ} (hv : v ≠ .nan)
    (hbelow : place exact h v < place exact h h.min) : atOrBelow exact h v = 0 := by
  have hsum := hs.summarizes
  apply le_antisymm ?_ (atOrBelow_nonneg hsum v)
  refine ((atOrBelow_between hs v).2 hv).trans ?_
  rw [Nat.cast_nonpos, hs.countP_eq, if_neg, Nat.add_zero, List.countP_eq_zero]
  · intro x hx
    obtain ⟨lo, hi, hb⟩ := hsum.bounds hx
    rw [hb.min] at hbelow
    have hplace := place_mono hsum (hs.nonneg hb.lo_mem) (hb.lo_le x hx)
    rw [decide_eq_true_eq]
    exact (hbelow.trans_le hplace).not_ge
  · rw [decide_eq_true_eq]
    exact (hbelow.trans_le le_top).not_ge

theorem atOrBelow_above (hs : Sketch exact h vs) {hi : ℝ} (hmax : h.max = .finite hi) (ht : upperEdge exact h hi ≤ t) :
    atOrBelow exact h (.finite t) = (finites vs).length := by
  have hsum := hs.summarizes
  obtain ⟨hhi, hle⟩ : hi ∈ finites vs ∧ ∀ x ∈ finites vs, x ≤ hi := by
    obtain ⟨-, hnone⟩ | ⟨x, hx, hmax', hle⟩ := hsum.max
    · rw [hmax] at hnone
      cases hnone
    · rw [hmax] at hmax'
      cases hmax'
      exact ⟨hx, hle⟩
  have hall : ∀ k, (hi ≠ 0 → index exact h hi < k) → before exact h vs k = (finites vs).length := by
    intro k hk
    rw [before, List.countP_eq_length]
    intro x hx
    rw [decide_eq_true_eq]
    rcases (hs.nonneg hx).eq_or_lt with rfl | hpos
    · exact Or.inl rfl
    · have hhipos := hpos.trans_le (hle x hx)
      exact Or.inr ((index_mono hsum hpos (hle x hx)).trans_lt (hk hhipos.ne'))
  unfold upperEdge at ht
  by_cases hzero : hi = 0
  · rw [if_pos hzero] at ht
    rcases ht.eq_or_lt with rfl | hpos
    · rw [atOrBelow_zero hsum, hsum.zeroCount, Nat.cast_inj, List.countP_eq_length]
      intro x hx
      exact decide_eq_true (le_antisymm (hzero ▸ hle x hx) (hs.nonneg hx))
    · obtain ⟨hlow, hhigh⟩ := atOrBelow_within hsum hpos
      rw [hall _ fun hne => absurd hzero hne] at hlow hhigh
      exact le_antisymm hhigh hlow
  · rw [if_neg hzero] at ht
    have hhipos : 0 < hi := lt_of_le_of_ne (hs.nonneg hhi) (Ne.symm hzero)
    have hedge : hi ≤ h.gamma ^ index exact h hi := (index_le_iff hsum hhipos).mp le_rfl
    have hpos : 0 < t := hhipos.trans_le (hedge.trans ht)
    have hindex : index exact h hi ≤ index exact h t := index_mono hsum hhipos (hedge.trans ht)
    rcases hindex.eq_or_lt with hsame | hlt
    · -- in the bucket of the greatest value only its edge is left
      have hupper : t ≤ h.gamma ^ index exact h t := (index_le_iff hsum hpos).mp le_rfl
      have hshare := share_edge hsum (le_antisymm hupper (hsame ▸ ht))
      rw [atOrBelow_positive hsum hpos, hshare, mul_one, ← Nat.cast_add, ← before_succ,
        hall _ fun _ => by omega]
    · obtain ⟨hlow, hhigh⟩ := atOrBelow_within hsum hpos
      rw [hall _ fun _ => hlt] at hlow
      rw [hall _ fun _ => by omega] at hhigh
      exact le_antisymm hhigh hlow

end

/-- Of any sketch of some values, the answers to thresholds grow with them; each lies between the
number of values in the buckets below that of the threshold and the number up to and with it; there
is none below the bucket of the least value, and there are all finite values from the upper edge of
the bucket of the greatest on, and all values at infinity. -/
theorem countAtOrBelow_between {h : Histogram ℝ} {vs : List (Value ℝ)} (hs : Sketch exact h vs) :
    (∀ v v', v ≠ .nan → v' ≠ .nan → v'.lt v = false → ∃ c c', (countAtOrBelow exact h v).2 = .ok c ∧
        (countAtOrBelow exact h v').2 = .ok c' ∧ c ≤ c') ∧
      (∀ v, v ≠ .nan → ∃ c, (countAtOrBelow exact h v).2 = .ok c ∧
        ((vs.countP fun w => decide (place exact h w < place exact h v) : ℕ) : ℝ) ≤ c ∧
        c ≤ (vs.countP fun w => decide (place exact h w ≤ place exact h v) : ℕ)) ∧
      (∀ v, v ≠ .nan → place exact h v < place exact h h.min → (countAtOrBelow exact h v).2 = .ok 0) ∧
      (∀ hi t, h.max = .finite hi → upperEdge exact h hi ≤ t →
        (countAtOrBelow exact h (.finite t)).2 = .ok ((finites vs).length : ℝ)) ∧
      (countAtOrBelow exact h .infinity).2 = .ok (h.count : ℝ) := by
  refine ⟨?_, ?_, ?_, ?_, rfl⟩
  · intro v v' hv hv' hle
    exact ⟨_, _, countAtOrBelow_eq _ _ hv, countAtOrBelow_eq _ _ hv', atOrBelow_mono hs hv hv' hle⟩
  · intro v hv
    have hbetween := atOrBelow_between hs v
    exact ⟨_, countAtOrBelow_eq _ _ hv, hbetween.1, hbetween.2 hv⟩
  · intro v hv hbelow
    rw [countAtOrBelow_eq _ _ hv, atOrBelow_below hs hv hbelow]
  · intro hi t hmax ht
    rw [countAtOrBelow_eq _ _ (by simp), atOrBelow_above hs hmax ht]

theorem countAtOrBelow_between_two : ∃ h : Histogram ℝ, Sketch exact h [.finite 0, .finite 5] ∧
    (∀ v v', v ≠ .nan → v' ≠ .nan → v'.lt v = false → ∃ c c', (countAtOrBelow exact h v).2 = .ok c ∧
        (countAtOrBelow exact h v').2 = .ok c' ∧ c ≤ c') ∧
      (∀ v, v ≠ .nan → ∃ c, (countAtOrBelow exact h v).2 = .ok c ∧
        (([Value.finite 0, .finite 5].countP fun w => decide (place exact h w < place exact h v) : ℕ) : ℝ) ≤ c ∧
        c ≤ ([Value.finite 0, .finite 5].countP fun w => decide (place exact h w ≤ place exact h v) : ℕ)) ∧
      (∀ v, v ≠ .nan → place exact h v < place exact h h.min → (countAtOrBelow exact h v).2 = .ok 0) ∧
      (∀ hi t, h.max = .finite hi → upperEdge exact h hi ≤ t →
        (countAtOrBelow exact h (.finite t)).2 = .ok ((finites [Value.finite (0 : ℝ), .finite 5]).length : ℝ)) ∧
      (countAtOrBelow exact h .infinity).2 = .ok (h.count : ℝ) := by
  obtain ⟨h, hs, -⟩ := exists_sketch [0, 5] (by norm_num)
  exact ⟨h, hs, countAtOrBelow_between hs⟩

/-- A threshold below both values is answered with more than none, and the greatest value with less
than both: all three have one bucket. -/
theorem countAtOrBelow_inside : ∃ h : Histogram ℝ, Sketch exact h [.finite (199 / 202), .finite (200 / 202)] ∧
    h.min = .finite (199 / 202) ∧ h.max = .finite (200 / 202) ∧
    (∃ c, (countAtOrBelow exact h (.finite (397 / 404))).2 = .ok c ∧ 0 < c) ∧
    ∃ c, (countAtOrBelow exact h (.finite (200 / 202))).2 = .ok c ∧ c < h.count := by
  obtain ⟨h, hs, halpha⟩ := exists_sketch [199 / 202, 200 / 202] (by norm_num)
  have hsum := hs.summarizes
  have hgamma : h.gamma = 101 / 99 := by
    rw [hsum.gamma, halpha]
    norm_num
  have hindex : ∀ x : ℝ, 99 / 101 < x → x ≤ 1 → index exact h x = 0 := by
    intro x hlow hhigh
    have hpos : 0 < x := by linarith
    apply le_antisymm
    · rw [index_le_iff hsum hpos, zpow_zero]
      exact hhigh
    · have hlt : -1 < index exact h x := by
        rw [lt_index_iff hsum hpos, zpow_neg_one, hgamma]
        norm_num
        exact hlow
      omega
  have hboth : inBucket exact h.logGamma [(199 / 202 : ℝ), 200 / 202] 0 = 2 := by
    have hfirst := hindex (199 / 202) (by norm_num) (by norm_num)
    have hsecond := hindex (200 / 202) (by norm_num) (by norm_num)
    unfold index at hfirst hsecond
    unfold inBucket
    rw [List.countP_cons_of_pos (by simp [hfirst]), List.countP_cons_of_pos (by simp [hsecond])]
    rfl
  have hnone : before exact h [.finite (199 / 202), .finite (200 / 202)] 0 = 0 := by
    unfold before
    rw [List.countP_eq_zero]
    intro x hx
    have hx : x = 199 / 202 ∨ x = 200 / 202 := by simpa [finites] using hx
    rcases hx with rfl | rfl
    · rw [hindex _ (by norm_num) (by norm_num)]
      norm_num
    · rw [hindex _ (by norm_num) (by norm_num)]
      norm_num
  have hanswer : ∀ t : ℝ, 99 / 101 < t → t ≤ 1 →
      (countAtOrBelow exact h (.finite t)).2 = .ok (2 * share exact h t) := by
    intro t hlow hhigh
    have hsame := hindex t hlow hhigh
    have hpos : 0 < t := by linarith
    rw [countAtOrBelow_eq _ _ (by simp), atOrBelow_positive hsum hpos, hsame]
    show Except.ok ((before exact h [.finite (199 / 202), .finite (200 / 202)] 0 : ℝ) +
      (inBucket exact h.logGamma [(199 / 202 : ℝ), 200 / 202] 0 : ℝ) * _) = _
    rw [hnone, hboth]
    norm_num
  have hlog := hsum.logGamma_pos
  have hshare : ∀ t : ℝ, 99 / 101 < t → t < 1 → 0 < share exact h t ∧ share exact h t < 1 := by
    intro t hlow hhigh
    have hpos : 0 < t := by linarith
    have hneg : Real.log t < 0 := Real.log_neg hpos hhigh
    have hedge : -h.logGamma < Real.log t := by
      have hinv : -h.logGamma = Real.log (99 / 101) := by
        rw [hsum.logGamma, hgamma]
        show -Real.log (101 / 99) = _
        rw [← Real.log_inv]
        norm_num
      rw [hinv]
      exact Real.log_lt_log (by norm_num) hlow
    have hratio : (exact.log t - (index exact h t - 1) * h.logGamma) / h.logGamma = (Real.log t + h.logGamma) / h.logGamma := by
      rw [hindex t hlow hhigh.le]
      congr 1
      show Real.log t - _ = _
      push_cast
      ring
    unfold share
    rw [hratio]
    constructor
    · exact lt_min one_pos (lt_max_of_lt_right (div_pos (by linarith) hlog))
    · apply min_lt_of_right_lt
      apply max_lt one_pos
      rw [div_lt_one hlog]
      linarith
  have hbounds : ∃ lo hi, Bounds h [.finite (199 / 202), .finite (200 / 202)] lo hi :=
    hsum.bounds (x := 199 / 202) List.mem_cons_self
  obtain ⟨lo, hi, hb⟩ := hbounds
  have hvalues : ∀ x : ℝ, x ∈ finites [Value.finite (199 / 202), .finite (200 / 202)] ↔ x = 199 / 202 ∨ x = 200 / 202 := by
    intro x
    simp [finites]
  refine ⟨h, hs, ?_, ?_, ⟨_, hanswer _ (by norm_num) (by norm_num), ?_⟩, _, hanswer _ (by norm_num) (by norm_num), ?_⟩
  · rw [hb.min]
    have hle := hb.lo_le (199 / 202) ((hvalues _).mpr (Or.inl rfl))
    rcases (hvalues lo).mp hb.lo_mem with rfl | rfl
    · rfl
    · norm_num at hle
  · rw [hb.max]
    have hle := hb.le_hi (200 / 202) ((hvalues _).mpr (Or.inr rfl))
    rcases (hvalues hi).mp hb.hi_mem with rfl | rfl
    · norm_num at hle
    · rfl
  · have := (hshare (397 / 404) (by norm_num) (by norm_num)).1
    linarith
  · have hcount : h.count = 2 := hsum.count
    have := (hshare (200 / 202) (by norm_num) (by norm_num)).2
    rw [hcount]
    push_cast
    linarith

end PerformanceHelpers.Histogram
