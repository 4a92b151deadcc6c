import Mathlib.Analysis.SpecialFunctions.Log.Basic
import PerformanceHelpers.Counting
import PerformanceHelpers.Histogram

/- The buckets of a sketch (`src/helpers/powerHistogram.js`), as its queries find them.

   What is proved:
     1. `search_cut` — the binary search of both queries stops at the first place that meets the
        predicate.
     2. `Summarizes.counted` — the counts before a place are those of the zeros and of the values
        whose bucket is before it, whatever the logarithm.
     3. `index_le_iff`, `valueAt_near` — with the exact logarithm a bucket holds the values between
        two powers of gamma, and its value is as near to each of them as the accuracy says. -/
namespace PerformanceHelpers.Histogram

/-! ## The search -/

/-- A place: what is before it does not meet the predicate, and what is after it does. -/
structure Cut (p : ℕ → Bool) (n r : ℕ) : Prop where
  le : r ≤ n
  below : ∀ j < r, p j = false
  above : ∀ j, r ≤ j → j < n → p j = true

theorem search_between {p : ℕ → Bool} {n : ℕ} (hp : ∀ i j, i ≤ j → j < n → p i = true → p j = true) (turns : ℕ) :
    ∀ lo hi, hi ≤ n → lo ≤ hi → hi - lo ≤ turns → (∀ j < lo, p j = false) →
      (∀ j, hi ≤ j → j < n → p j = true) → Cut p n (search p turns lo hi) := by
  induction turns with
  | zero =>
    intro lo hi hn hle hturns hbelow habove
    obtain rfl : lo = hi := by omega
    exact ⟨hn, hbelow, habove⟩
  | succ turns ih =>
    intro lo hi hn hle hturns hbelow habove
    unfold search
    split
    next hlt =>
      dsimp only
      split
      · next hmid =>
        apply ih lo ((lo + hi) / 2) (by omega) (by omega) (by omega) hbelow
        intro j hj hjn
        exact hp _ j hj hjn hmid
      · next hmid =>
        apply ih ((lo + hi) / 2 + 1) hi hn (by omega) (by omega) ?_ habove
        intro j hj
        by_contra hyes
        exact hmid (hp j _ (by omega) (by omega) (by simpa using hyes))
    next hlt =>
      obtain rfl : lo = hi := by omega
      exact ⟨hn, hbelow, habove⟩

/-- The search stops at the first place that meets a predicate that holds from some place on. -/
theorem search_cut {p : ℕ → Bool} {n : ℕ} (hp : ∀ i j, i ≤ j → j < n → p i = true → p j = true) :
    Cut p n (search p n 0 n) :=
  search_between hp n 0 n le_rfl (Nat.zero_le n) (by omega) (fun _ hj => absurd hj (Nat.not_lt_zero _))
    fun _ hj hjn => absurd hjn hj.not_gt

/-! ## The order of the buckets -/

theorem cumulative_getD {buckets : List (ℤ × ℕ)} {j : ℕ} (hj : j ≤ (orderOf buckets).indices.length) :
    (orderOf buckets).cumulative.getD j 0 =
      (((orderOf buckets).indices.take j).map fun i => EntryMap.count i buckets).sum := by
  have hget : (orderOf buckets).cumulative[j]? = some (((orderOf buckets).indices.take j).foldl
      (fun before i => before + EntryMap.count i buckets) 0) := by
    show (List.scanl _ 0 (orderOf buckets).indices)[j]? = _
    rw [List.getElem?_scanl, if_pos hj]
  rw [List.getD_eq_getElem?_getD, hget, Option.getD_some, List.sum_eq_foldl, List.foldl_map]

section
variable {buckets : List (ℤ × ℕ)} {f : ℤ → ℕ} {i : ℤ} {j : ℕ}

section
variable (hb : EntryMap.Tallies buckets f)
include hb

theorem mem_indices : i ∈ (orderOf buckets).indices ↔ f i ≠ 0 := by
  have hmem : i ∈ (orderOf buckets).indices ↔ i ∈ buckets.map Prod.fst :=
    (List.mergeSort_perm (buckets.map Prod.fst) _).mem_iff
  rw [hmem, EntryMap.mem_keys, hb.get]
  by_cases h0 : f i = 0
  · simp [h0]
  · simp [h0]

theorem indices_pairwise : (orderOf buckets).indices.Pairwise (· < ·) := by
  have hle : (orderOf buckets).indices.Pairwise (· ≤ ·) := List.pairwise_mergeSort' (· ≤ ·) _
  have hne : (orderOf buckets).indices.Nodup :=
    (List.mergeSort_perm (buckets.map Prod.fst) _).nodup_iff.mpr hb.nodup
  exact (hle.and hne).imp fun h => lt_of_le_of_ne h.1 h.2

/-- The indices before a place are below the one there, and those from it on are not. -/
theorem indices_split (hi : (orderOf buckets).indices[j]? = some i) :
    (∀ k ∈ (orderOf buckets).indices.take j, k < i) ∧ ∀ k ∈ (orderOf buckets).indices.drop j, i ≤ k := by
  have hpair := indices_pairwise hb
  obtain ⟨hj, rfl⟩ := List.getElem?_eq_some_iff.mp hi
  have hsplit := List.pairwise_append.mp (List.take_append_drop j (orderOf buckets).indices ▸ hpair)
  have hdrop := List.drop_eq_getElem_cons hj
  rw [hdrop] at hsplit ⊢
  refine ⟨fun k hk => hsplit.2.2 k hk _ List.mem_cons_self, fun k hk => ?_⟩
  rcases List.mem_cons.mp hk with rfl | hk
  · exact le_rfl
  · exact ((List.pairwise_cons.mp hsplit.2.1).1 k hk).le

/-- The indices up to a place, and those after it. -/
theorem indices_split_succ (hi : (orderOf buckets).indices[j]? = some i) :
    (∀ k ∈ (orderOf buckets).indices.take (j + 1), k < i + 1) ∧
      ∀ k ∈ (orderOf buckets).indices.drop (j + 1), i + 1 ≤ k := by
  obtain ⟨hbefore, -⟩ := indices_split hb hi
  have hpair := indices_pairwise hb
  obtain ⟨hj, rfl⟩ := List.getElem?_eq_some_iff.mp hi
  constructor
  · intro k hk
    rw [List.take_succ_eq_append_getElem hj, List.mem_append, List.mem_singleton] at hk
    rcases hk with hk | rfl
    · have := hbefore k hk
      omega
    · omega
  · intro k hk
    have hsplit := List.pairwise_append.mp (List.take_append_drop j (orderOf buckets).indices ▸ hpair)
    have hdrop := List.drop_eq_getElem_cons hj
    rw [hdrop] at hsplit
    have := (List.pairwise_cons.mp hsplit.2.1).1 k hk
    omega

end

end

section
variable {K : Type} [Field K] [LinearOrder K] [FloorRing K] {m : Maths K} {h : Histogram K} {vs : List (Value K)}

theorem Summarizes.counted_take (hs : Summarizes m h vs) {j : ℕ} (hj : j ≤ (orderOf h.buckets).indices.length) :
    h.zeroCount + (orderOf h.buckets).cumulative.getD j 0 =
      (finites vs).countP fun x => decide (x = 0 ∨ index m h x ∈ (orderOf h.buckets).indices.take j) := by
  have hnodup : ((orderOf h.buckets).indices.take j).Nodup :=
    ((indices_pairwise hs.buckets).imp fun h => h.ne).sublist (List.take_sublist j _)
  have hcounts : ∀ i, EntryMap.count i h.buckets =
      (finites vs).countP fun x => decide (x ≠ 0) && decide (index m h x = i) := by
    intro i
    rw [hs.buckets.count, inBucket]
    simp only [Bool.decide_and]
    rfl
  rw [cumulative_getD hj, hs.zeroCount]
  simp only [hcounts]
  rw [sum_countP_eq (index m h) (fun x => decide (x ≠ 0)) hnodup]
  symm
  apply countP_or
  · intro x _
    by_cases hx : x = 0
    · simp [hx]
    · simp [hx]
  · intro x _ hx
    have hx : x = 0 := by simpa using hx
    simp [hx]

theorem Summarizes.index_mem (hs : Summarizes m h vs) {x : K} (hx : x ∈ finites vs) (hne : x ≠ 0) :
    index m h x ∈ (orderOf h.buckets).indices := by
  rw [mem_indices hs.buckets]
  have hpos : 0 < inBucket m h.logGamma (finites vs) (index m h x) := by
    apply List.countP_pos_iff.mpr
    exact ⟨x, hx, by simp only [decide_eq_true_eq]; exact ⟨hne, rfl⟩⟩
  exact hpos.ne'

/-- The values whose bucket is below `k`, with the zeros. -/
def before (m : Maths K) (h : Histogram K) (vs : List (Value K)) (k : ℤ) : ℕ :=
  (finites vs).countP fun x => decide (x = 0 ∨ index m h x < k)

theorem before_mono {k l : ℤ} (hkl : k ≤ l) : before m h vs k ≤ before m h vs l := by
  apply List.countP_mono_left
  intro x _ hx
  simp only [decide_eq_true_eq] at hx ⊢
  exact hx.imp_right fun hlt => hlt.trans_le hkl

theorem before_le (k : ℤ) : before m h vs k ≤ (finites vs).length := List.countP_le_length

/-- At a place that splits the indices at `k`, these are the values whose bucket is below `k`. -/
theorem Summarizes.counted (hs : Summarizes m h vs) {j : ℕ} {k : ℤ}
    (hj : j ≤ (orderOf h.buckets).indices.length)
    (hbelow : ∀ i ∈ (orderOf h.buckets).indices.take j, i < k)
    (habove : ∀ i ∈ (orderOf h.buckets).indices.drop j, k ≤ i) :
    h.zeroCount + (orderOf h.buckets).cumulative.getD j 0 = before m h vs k := by
  rw [hs.counted_take hj]
  apply List.countP_congr
  intro x hx
  simp only [decide_eq_true_eq]
  by_cases hne : x = 0
  · simp [hne]
  · have hmem := hs.index_mem hx hne
    rw [← List.take_append_drop j (orderOf h.buckets).indices, List.mem_append] at hmem
    refine or_congr_right ⟨hbelow _, fun hlt => ?_⟩
    rcases hmem with hmem | hmem
    · exact hmem
    · exact absurd hlt (habove _ hmem).not_gt

/-- At the end these are all of them. -/
theorem Summarizes.counted_all (hs : Summarizes m h vs) :
    h.zeroCount + (orderOf h.buckets).cumulative.getD (orderOf h.buckets).indices.length 0 = (finites vs).length := by
  rw [hs.counted_take le_rfl, List.take_length, List.countP_eq_length]
  intro x hx
  by_cases hne : x = 0
  · simp [hne]
  · simp [hs.index_mem hx hne]

theorem Sketch.recordable (hs : Sketch m h vs) : ∀ v ∈ vs, v.Recordable := by
  induction hs with
  | new _ => exact fun v hv => absurd hv List.not_mem_nil
  | record _ hok ih =>
    intro v hv
    rcases List.mem_append.mp hv with hv | hv
    · exact ih v hv
    · obtain rfl := List.mem_singleton.mp hv
      unfold Histogram.record at hok
      cases v with
      | nan | negInfinity => cases hok
      | infinity => exact Or.inl rfl
      | finite x =>
        dsimp only at hok
        split at hok
        · cases hok
        · next hx => exact Or.inr ⟨x, rfl, hx⟩
  | percentile _ _ ih => exact ih
  | countAtOrBelow _ _ ih => exact ih
  | reset _ _ => exact fun v hv => absurd hv List.not_mem_nil
  | merge _ _ _ ih ih' => exact fun v hv => (List.mem_append.mp hv).elim (ih v) (ih' v)
  | mergeJson _ _ _ _ ih ih' => exact fun v hv => (List.mem_append.mp hv).elim (ih v) (ih' v)
  | fromJSON _ _ _ ih => exact ih

omit [Field K] [LinearOrder K] [FloorRing K] in
theorem mem_finites {x : K} : x ∈ finites vs ↔ Value.finite x ∈ vs := by
  unfold finites
  rw [List.mem_filterMap]
  constructor
  · rintro ⟨v, hv, hx⟩
    cases v with
    | finite y =>
      cases hx
      exact hv
    | _ => cases hx
  · exact fun hx => ⟨_, hx, rfl⟩

theorem Sketch.nonneg (hs : Sketch m h vs) {x : K} (hx : x ∈ finites vs) : 0 ≤ x := by
  rcases hs.recordable _ (mem_finites.mp hx) with hv | ⟨y, hv, hy⟩
  · cases hv
  · cases hv
    exact not_lt.mp hy

/-- What is recorded is counted among the finite values, or with the infinities. -/
theorem Sketch.countP_eq (hs : Sketch m h vs) (p : Value K → Bool) :
    vs.countP p = (finites vs).countP (fun x => p (.finite x)) + if p .infinity = true then h.infCount else 0 := by
  rw [hs.summarizes.infCount]
  have hall := hs.recordable
  clear hs
  induction vs with
  | nil => simp
  | cons v vs ih =>
    have hrest := ih fun w hw => hall w (List.mem_cons_of_mem _ hw)
    rw [List.countP_cons, List.countP_cons, hrest]
    rcases hall v List.mem_cons_self with rfl | ⟨x, rfl, -⟩
    · have hfinites : finites (.infinity :: vs) = finites vs := rfl
      rw [hfinites]
      cases p .infinity <;> simp
      omega
    · have hfinites : finites (.finite x :: vs) = x :: finites vs := rfl
      rw [hfinites, List.countP_cons]
      simp only [reduceCtorEq, decide_false, Bool.false_eq_true, if_false, Nat.add_zero]
      omega

theorem Sketch.length_eq (hs : Sketch m h vs) : vs.length = (finites vs).length + h.infCount := by
  have hcount := hs.countP_eq fun _ => true
  rwa [List.countP_true, List.countP_true, if_pos rfl] at hcount

end

/-! ## The exact logarithm -/

/-- The logarithm and the powers of the real numbers. -/
noncomputable def exact : Maths ℝ := ⟨Real.log, fun x i => x ^ i⟩

section
variable {h : Histogram ℝ} {vs : List (Value ℝ)} {x y : ℝ} {i : ℤ}

section
variable (hs : Summarizes exact h vs)
include hs

theorem Summarizes.one_lt_gamma : 1 < h.gamma := by
  rw [hs.gamma, one_lt_div (by linarith [hs.alpha_lt])]
  linarith [hs.alpha_pos]

theorem Summarizes.logGamma_pos : 0 < h.logGamma := by
  rw [hs.logGamma]
  exact Real.log_pos hs.one_lt_gamma

/-- The bucket of a value is the first whose power of gamma it does not exceed. -/
theorem index_le_iff (hx : 0 < x) : index exact h x ≤ i ↔ x ≤ h.gamma ^ i := by
  have hgamma : 0 < h.gamma := by linarith [hs.one_lt_gamma]
  have hlog : Real.log (h.gamma ^ i) = i * h.logGamma := by
    rw [Real.log_zpow, hs.logGamma]
    rfl
  unfold index
  rw [Int.ceil_le, div_le_iff₀ hs.logGamma_pos, ← hlog]
  exact Real.log_le_log_iff hx (zpow_pos hgamma i)

theorem lt_index_iff (hx : 0 < x) : i < index exact h x ↔ h.gamma ^ i < x := by
  rw [← not_le, index_le_iff hs hx, not_le]

theorem index_mono (hx : 0 < x) (hxy : x ≤ y) : index exact h x ≤ index exact h y := by
  rw [index_le_iff hs hx]
  exact hxy.trans ((index_le_iff hs (hx.trans_le hxy)).mp le_rfl)

theorem valueAt_eq (i : ℤ) : valueAt exact h i = (1 - h.alpha) * h.gamma ^ i := by
  have hone : (1 - h.alpha) ≠ 0 := by linarith [hs.alpha_lt]
  have hsum : 1 + h.gamma = 2 / (1 - h.alpha) := by
    rw [hs.gamma]
    field_simp
    ring
  show 2 * h.gamma ^ i / (1 + h.gamma) = _
  rw [hsum]
  field_simp

/-- The value of a bucket is as near to what is in it as the accuracy says. -/
theorem valueAt_near (hx : 0 < x) :
    |valueAt exact h (index exact h x) - x| ≤ h.alpha * x := by
  have hgamma : 0 < h.gamma := by linarith [hs.one_lt_gamma]
  have hone : 0 < 1 - h.alpha := by linarith [hs.alpha_lt]
  have hupper : x ≤ h.gamma ^ index exact h x := (index_le_iff hs hx).mp le_rfl
  have hlower : h.gamma ^ (index exact h x - 1) < x := (lt_index_iff hs hx).mp (by omega)
  have hpower : h.gamma ^ index exact h x = h.gamma ^ (index exact h x - 1) * h.gamma := by
    rw [← zpow_add_one₀ hgamma.ne', sub_add_cancel]
  have hscaled : (1 - h.alpha) * h.gamma = 1 + h.alpha := by
    rw [hs.gamma]
    field_simp
  rw [valueAt_eq hs, abs_le]
  constructor
  · have := mul_le_mul_of_nonneg_left hupper hone.le
    linarith
  · have hequal : (1 - h.alpha) * h.gamma ^ index exact h x = (1 + h.alpha) * h.gamma ^ (index exact h x - 1) := by
      rw [hpower, ← hscaled]
      ring
    have := mul_le_mul_of_nonneg_left hlower.le (by linarith [hs.alpha_pos] : 0 ≤ 1 + h.alpha)
    rw [hequal]
    linarith

theorem valueAt_mono {j : ℤ} (hij : i ≤ j) : valueAt exact h i ≤ valueAt exact h j := by
  rw [valueAt_eq hs, valueAt_eq hs]
  have hone : 0 ≤ 1 - h.alpha := by linarith [hs.alpha_lt]
  exact mul_le_mul_of_nonneg_left (zpow_le_zpow_right₀ hs.one_lt_gamma.le hij) hone

end

structure Bounds (h : Histogram ℝ) (vs : List (Value ℝ)) (lo hi : ℝ) : Prop where
  min : h.min = .finite lo
  max : h.max = .finite hi
  lo_mem : lo ∈ finites vs
  hi_mem : hi ∈ finites vs
  lo_le : ∀ x ∈ finites vs, lo ≤ x
  le_hi : ∀ x ∈ finites vs, x ≤ hi

theorem Summarizes.bounds (hs : Summarizes exact h vs) (hx : x ∈ finites vs) : ∃ lo hi, Bounds h vs lo hi := by
  have hne : finites vs ≠ [] := List.ne_nil_of_mem hx
  obtain ⟨hnil, -⟩ | ⟨lo, hlo, hmin, hle⟩ := hs.min
  · exact absurd hnil hne
  obtain ⟨hnil, -⟩ | ⟨hi, hhi, hmax, hge⟩ := hs.max
  · exact absurd hnil hne
  exact ⟨lo, hi, hmin, hmax, hlo, hhi, hle, hge⟩

theorem Summarizes.min_infinity (hs : Summarizes exact h vs) (hnil : finites vs = []) : h.min = .infinity := by
  obtain ⟨-, hmin⟩ | ⟨lo, hlo, -, -⟩ := hs.min
  · exact hmin
  · rw [hnil] at hlo
    exact absurd hlo List.not_mem_nil

theorem exists_sketch (xs : List ℝ) (hxs : ∀ x ∈ xs, 0 ≤ x) :
    ∃ h : Histogram ℝ, Sketch exact h (xs.map .finite) ∧ h.alpha = 1 / 100 := by
  have hrange : ¬((1 / 100 : ℝ) ≤ 0 ∨ (1 : ℝ) ≤ 1 / 100) := by norm_num
  obtain ⟨h, hnew, halpha⟩ : ∃ h, Histogram.new exact {} = .ok h ∧ h.alpha = 1 / 100 := by
    simp only [Histogram.new, Option.getD_none, if_neg hrange]
    exact ⟨_, rfl, rfl⟩
  have hempty : Sketch exact h [] := .new hnew
  have hvalues : ∀ v ∈ xs.map Value.finite, v.Recordable := by
    intro v hv
    obtain ⟨x, hx, rfl⟩ := List.mem_map.mp hv
    exact Or.inr ⟨x, rfl, (hxs x hx).not_gt⟩
  obtain ⟨hsketch, hsame⟩ := hempty.records hvalues
  exact ⟨_, hsketch, hsame.trans halpha⟩

end

end PerformanceHelpers.Histogram
