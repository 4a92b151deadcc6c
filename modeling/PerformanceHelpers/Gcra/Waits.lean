import PerformanceHelpers.Gcra

/- The waits of `PowerGCRA` (`src/helpers/powerGCRA.js`), over exact rationals.

   What is proved:
     1. `covers_iff` — up to the ceiling a count is covered exactly when the tolerance that
        remains is not less than its own span. So `tryConsume`, `available`, `tryReserve` and
        `retryAfter`, which each ask in their own way, have one boundary.
     2. `remainingAt_wait` — the tolerance grows with the clock until all of it is there.
     3. `waits_exact` — after the wait `retryAfter` gives, and not before it, the count is
        admitted. A count is the floor of what is asked for: `available` can be below a
        fraction that `tryConsume` admits (`available_below`). -/
namespace PerformanceHelpers.Gcra

section
variable {l : Limiter} {count : ℕ} {now t : ℚ}

theorem admits_iff : (admits l count now).2 = true ↔ (count : ℤ) ≤ available l now := by
  have hsame : covers (readClock l now) (tatAt (readClock l now) now) now = available l now := rfl
  rw [admits, hsame]
  by_cases h : (count : ℤ) ≤ available l now
  · rw [if_pos h]
    exact iff_of_true rfl h
  · rw [if_neg h]
    exact iff_of_false Bool.false_ne_true h

theorem covers_iff (hl : Holds l) (h0 : 0 < count) (hceiling : (count : ℤ) ≤ ceiling l) {tat : ℚ} :
    (count : ℤ) ≤ covers l tat now ↔ ((count : ℚ) - 1) * l.emission ≤ remainingAt l tat now := by
  have hT := hl.emission
  have hone : (1 : ℚ) ≤ count := by exact_mod_cast h0
  have hspan : 0 ≤ ((count : ℚ) - 1) * l.emission := mul_nonneg (by linarith) hT.le
  rw [covers]
  generalize remainingAt l tat now = remaining
  by_cases hneg : remaining < 0
  · -- nothing is covered, and no span fits
    rw [if_pos hneg]
    exact iff_of_false (by omega) (by linarith)
  rw [if_neg hneg]
  by_cases hfull : l.delayTolerance ≤ remaining
  · -- the span of the ceiling is within the burst
    rw [if_pos hfull]
    refine iff_of_true hceiling (le_trans ?_ hfull)
    have hfloor : (⌊l.burst⌋ : ℚ) ≤ l.burst := Int.floor_le _
    have hcount : (count : ℚ) ≤ ⌊l.burst⌋ + 1 := by
      unfold ceiling at hceiling
      exact_mod_cast hceiling
    rw [hl.tolerance]
    exact mul_le_mul_of_nonneg_right (by linarith) hT.le
  · -- the floor of what remains in units
    rw [if_neg hfull]
    calc (count : ℤ) ≤ ⌊remaining / l.emission⌋ + 1
        ↔ (count : ℤ) - 1 ≤ ⌊remaining / l.emission⌋ := by omega
      _ ↔ (((count : ℤ) - 1 : ℤ) : ℚ) ≤ remaining / l.emission := Int.le_floor
      _ ↔ ((count : ℚ) - 1) * l.emission ≤ remaining := by
        rw [le_div_iff₀ hT]
        push_cast
        rfl

theorem remainingAt_eq (l : Limiter) (t : ℚ) :
    remainingAt l (tatAt l t) t = min l.delayTolerance (l.tat.elim l.delayTolerance fun tat =>
      l.delayTolerance - (tat - t)) := by
  cases htat : l.tat with
  | none => simp [remainingAt, tatAt, htat]
  | some tat =>
    simp only [remainingAt, tatAt, htat, Option.elim_some]
    rcases le_total t tat with h | h
    · rw [max_eq_right h, min_eq_right (by linarith)]
    · rw [max_eq_left h, min_eq_left (by linarith), sub_self, sub_zero]

/-- Where it is not all there, the tolerance grows with the clock. -/
theorem remainingAt_wait (hshort : remainingAt l (tatAt l now) now < l.delayTolerance) (t : ℚ) :
    remainingAt l (tatAt l t) t = min l.delayTolerance (remainingAt l (tatAt l now) now + (t - now)) := by
  rw [remainingAt_eq] at hshort ⊢
  rw [remainingAt_eq]
  cases htat : l.tat with
  | none =>
    rw [htat] at hshort
    simp at hshort
  | some tat =>
    rw [htat] at hshort
    simp only [Option.elim_some] at hshort ⊢
    rw [min_eq_right (b := l.delayTolerance - (tat - now))]
    · congr 1
      ring
    · by_contra hfull
      rw [min_eq_left (not_le.mp hfull).le] at hshort
      exact lt_irrefl _ hshort

/-- A count up to the ceiling is admitted at a reading from `now` on exactly from the end of its
wait on; one that has to wait is not admitted before that either. -/
theorem available_iff_waited (hl : Holds l) (h0 : 0 < count) (hceiling : (count : ℤ) ≤ ceiling l)
    (ht : now ≤ t ∨ 0 < shortfall l count now) :
    (count : ℤ) ≤ available l t ↔ now + shortfall l count now ≤ t := by
  rw [available, covers_iff hl h0 hceiling]
  have hspan : ((count : ℚ) - 1) * l.emission ≤ l.delayTolerance := by
    have hfloor : (⌊l.burst⌋ : ℚ) ≤ l.burst := Int.floor_le _
    have hcount : (count : ℚ) ≤ ⌊l.burst⌋ + 1 := by
      unfold ceiling at hceiling
      exact_mod_cast hceiling
    rw [hl.tolerance]
    exact mul_le_mul_of_nonneg_right (by linarith) hl.emission.le
  by_cases hfits : ((count : ℚ) - 1) * l.emission ≤ remainingAt l (tatAt l now) now
  · -- there is no wait
    have hnone : shortfall l count now = 0 := max_eq_left (by linarith)
    rw [hnone] at ht ⊢
    have hlater : now ≤ t := ht.resolve_right (lt_irrefl 0)
    have hnow : (count : ℤ) ≤ available l now := (covers_iff hl h0 hceiling).mpr hfits
    exact iff_of_true ((covers_iff hl h0 hceiling).mp (hnow.trans (available_mono hl hlater))) (by linarith)
  · have hwait : shortfall l count now =
        ((count : ℚ) - 1) * l.emission - remainingAt l (tatAt l now) now :=
      max_eq_right (by linarith [not_le.mp hfits])
    have hshort : remainingAt l (tatAt l now) now < l.delayTolerance := by
      linarith [not_le.mp hfits]
    rw [remainingAt_wait hshort t, le_min_iff, hwait]
    constructor
    · rintro ⟨-, h⟩
      linarith
    · intro h
      exact ⟨hspan, by linarith⟩

theorem available_nonneg (hl : Holds l) (t : ℚ) : 0 ≤ available l t := by
  rw [available, covers]
  have hburst : 0 ≤ ⌊l.burst⌋ := Int.floor_nonneg.mpr hl.burst
  by_cases hneg : remainingAt l (tatAt l t) t < 0
  · rw [if_pos hneg]
  · have hfloor : 0 ≤ ⌊remainingAt l (tatAt l t) t / l.emission⌋ :=
      Int.floor_nonneg.mpr (div_nonneg (not_lt.mp hneg) hl.emission.le)
    rw [if_neg hneg, ceiling]
    split <;> omega

theorem assertCount_method {n : Number} {className method : String}
    (h : assertCount n className method = .ok count) (className' method' : String) :
    assertCount n className' method' = .ok count := by
  cases n with
  | finite q => exact h
  | _ => cases h

theorem tryConsume_answer (hl : Holds l) {n : Number}
    (hcount : assertCount n "PowerGCRA" "tryConsume" = .ok count) (t : ℚ) :
    (tryConsume l n t).2 = .ok (decide ((count : ℤ) ≤ available l t)) := by
  rw [tryConsume, hcount]
  cases count with
  | zero => simp [available_nonneg hl t]
  | succ count =>
    dsimp only
    rw [Except.ok.injEq, Bool.eq_iff_iff, admits_iff, decide_eq_true_iff]

theorem retryAfter_answer {n : Number} (hcount : assertCount n "PowerGCRA" "tryConsume" = .ok count)
    (h0 : 0 < count) (hceiling : (count : ℤ) ≤ ceiling l) :
    retryAfter l n now = .ok (shortfall l count now) := by
  rw [retryAfter, assertCount_method hcount "PowerGCRA" "retryAfter"]
  cases count with
  | zero => exact absurd h0 (lt_irrefl 0)
  | succ count => exact if_neg (not_lt.mpr hceiling)

end

/-- In every state, a request is reserved exactly when it is consumed, and its count is available
exactly when it is consumed. A count up to the ceiling is consumed once the wait that
`retryAfter` gives is over, and at no reading from now on before; a count that has to wait is
not consumed at an earlier reading at all. -/
theorem waits_exact {l : Limiter} (hl : Holds l) (n : Number) (now : ℚ) :
    ((tryReserve l n now).2 = .ok none ↔ (tryConsume l n now).2 = .ok true) ∧
    ∀ count, assertCount n "PowerGCRA" "tryConsume" = .ok count →
      ((count : ℤ) ≤ available l now ↔ (tryConsume l n now).2 = .ok true) ∧
      ((count : ℤ) ≤ ceiling l → ∃ wait, retryAfter l n now = .ok wait ∧ 0 ≤ wait ∧
        (tryConsume l n (now + wait)).2 = .ok true ∧
        ∀ t < now + wait, now ≤ t ∨ 0 < wait → (tryConsume l n t).2 = .ok false) := by
  refine ⟨(tryReserve_eq l n now).2, fun count hcount => ⟨?_, fun hceiling => ?_⟩⟩
  · rw [tryConsume_answer hl hcount]
    simp
  rcases Nat.eq_zero_or_pos count with rfl | h0
  · -- nothing is asked for
    have hsame : retryAfter l n now = .ok 0 := by
      rw [retryAfter, assertCount_method hcount "PowerGCRA" "retryAfter"]
      rfl
    refine ⟨0, hsame, le_rfl, ?_, fun t ht hlater => ?_⟩
    · rw [tryConsume_answer hl hcount]
      simp [available_nonneg hl]
    · rcases hlater with h | h
      · exact absurd ht (by linarith)
      · exact absurd h (lt_irrefl 0)
  · have hwait : 0 ≤ shortfall l count now := le_max_left _ _
    refine ⟨_, retryAfter_answer hcount h0 hceiling, hwait, ?_, fun t ht hlater => ?_⟩
    · have hdone := (available_iff_waited hl h0 hceiling (t := now + shortfall l count now)
        (Or.inl (by linarith))).mpr le_rfl
      rw [tryConsume_answer hl hcount, decide_eq_true hdone]
    · have hearly : ¬(count : ℤ) ≤ available l t := fun h =>
        absurd ((available_iff_waited hl h0 hceiling hlater).mp h) (not_le.mpr ht)
      rw [tryConsume_answer hl hcount, decide_eq_false hearly]

/-- With half a unit of burst, the second call waits. -/
theorem waits_exact_halfBurst :
    ∃ l, new halfBurst = .ok l ∧ ∃ wait,
      retryAfter (tryConsume l (.finite 1) 0).1 (.finite 1) 0 = .ok wait ∧
        (tryConsume (tryConsume l (.finite 1) 0).1 (.finite 1) (0 + wait)).2 = .ok true := by
  refine ⟨_, new_halfBurst, ?_⟩
  have hl := (holds_new new_halfBurst).1
  have hl' := (tryConsume_spec hl (.finite 1) 0).1.holds hl
  have hcount : assertCount (.finite 1) "PowerGCRA" "tryConsume" = .ok 1 := by decide
  obtain ⟨wait, hwait, -, hdone, -⟩ := ((waits_exact hl' (.finite 1) 0).2 1 hcount).2 (by decide +kernel)
  exact ⟨wait, hwait, hdone⟩

/-- One unit is available, and one and a half are admitted, as one. -/
theorem available_below : ∃ l, new { rate := .finite 1, per := some 1, burst := some 1 } = .ok l ∧
    let l' := (tryConsume l (.finite 1) 0).1
    (3 / 2 : ℚ) ≤ ceiling l' ∧ ¬(3 / 2 : ℚ) ≤ available l' 0 ∧ (tryConsume l' (.finite (3 / 2)) 0).2 = .ok true := by
  have hnew : new { rate := .finite 1, per := some 1, burst := some 1 } = .ok
      { rate := 1, per := 1, burst := 1, emission := 1 / 1, delayTolerance := 1 * (1 / 1)
        tat := none, lastNow := none, onError := false, reports := [] } := by
    have h : ¬(1 : ℚ) ≤ 0 := by norm_num
    have h' : ¬(1 : ℚ) < 0 := by norm_num
    simp only [new, assertRate, assertLimitRequired, if_neg h, if_neg h', lt_irrefl, if_false]
    rfl
  exact ⟨_, hnew, by decide +kernel⟩

end PerformanceHelpers.Gcra
