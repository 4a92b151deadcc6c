import PerformanceHelpers.Limiter
import PerformanceHelpers.PowerServo

/- `PowerFlowControl` (`src/helpers/powerFlowControl.js`): a token bucket whose rate is the
   output of a `PowerServo`, over exact rationals.

   The bucket is refilled when it is asked for tokens, for the time since the last refill and
   at the rate of that moment. `observe` moves the rate without a refill, so the time before
   it is credited at a rate that was not in force. What is left of a token is carried to the
   next refill, also beside a full bucket.

   What is proved:
     1. `holds_observe`, `refill_spec` — the rate stays within its bounds, as the servo gives it,
        and the tokens within the capacity.
     2. `admitted_le` — where no refill credits more than the rates that were in force, the
        tokens of any window are within the capacity, what may be carried beside it, and what
        those rates gave over the window (`earned`, which is their integral).
     3. `rate_respected` — so where no refill leaves a carry beside a full bucket either, they
        are within the capacity and the integral. `burst_on_reopening` takes twice the capacity
        through a window in which the rate was 0. -/
namespace PerformanceHelpers.PowerFlowControl

structure Flow where
  capacity : ℚ
  /-- For `reset`. -/
  initialRate : ℚ
  minRate : ℚ
  /-- `none` is `Infinity`. -/
  maxRate : Option ℚ
  tokens : ℚ
  /-- Tokens a second. -/
  rate : ℚ
  lastRefill : ℚ
  tokenRemainder : ℚ
  observations : ℕ
  disposed : Bool
  servo : PowerServo.Servo
  deriving DecidableEq

structure Options extends PowerServo.Options where
  capacity : Option ℚ := none
  initialRate : Option ℚ := none
  minRate : Option ℚ := none
  maxRate : Option ℚ := none

/-- A `maxRate` that is given and finite is at least 0. -/
def assertMaxRate (maxRate : Option ℚ) : Except String (Option ℚ) :=
  optionalLimit maxRate "maxRate" "PowerFlowControl"

/-- The constructor, at a reading of the clock. -/
def new (o : Options) (now : ℚ) : Except String Flow := do
  let capacity ← assertLimitRequired o.capacity "capacity" "PowerFlowControl" 1 1
  let initialRate ← assertLimitRequired o.initialRate "initialRate" "PowerFlowControl" 0 1
  let minRate ← assertLimitRequired o.minRate "minRate" "PowerFlowControl" 0 0
  let maxRate ← assertMaxRate o.maxRate
  if maxRate.any fun m => decide (m < minRate) then
    .error (s!"PowerFlowControl: maxRate ({maxRate.getD 0}) must be >= minRate ({minRate}). An inverted " ++
      "range has no rate inside it, so every observe() would clamp to a value outside " ++
      "both bounds and the controller would never settle.")
  else if initialRate < minRate || maxRate.any fun m => decide (m < initialRate) then
    .error (s!"PowerFlowControl: initialRate ({initialRate}) must be within " ++
      s!"[minRate, maxRate] = [{minRate}, {maxRate}].")
  else
    let servo ← PowerServo.new o.toOptions (some minRate) maxRate
    pure
      { capacity, initialRate, minRate, maxRate
        tokens := capacity
        rate := initialRate
        lastRefill := now
        tokenRemainder := 0
        observations := 0
        disposed := false
        servo }

/-- `observe(measured, dt)`: the rate it leaves, and what it throws. Its hook comes last, and
what the hook throws is caught. -/
def observe (f : Flow) (measured : Number) (dt : Option Number) : Flow × Except String ℚ :=
  if f.disposed then (f, .ok f.rate)
  else match PowerServo.step f.servo measured dt with
    | .error e => (f, .error e)
    | .ok (servo, next) =>
      ({ f with servo, rate := next, observations := f.observations + 1 }, .ok next)

def tokensToAdd (f : Flow) (now : ℚ) : ℚ := (now - f.lastRefill) / 1000 * f.rate + f.tokenRemainder

def refill (f : Flow) (now : ℚ) : Flow :=
  if f.rate ≤ 0 then { f with lastRefill := now }
  else if max 0 (now - f.lastRefill) ≤ 0 then f
  else
    let whole := ⌊tokensToAdd f now⌋
    { f with
      tokenRemainder := tokensToAdd f now - whole
      lastRefill := now
      tokens := if 0 < whole then min f.capacity (f.tokens + whole) else f.tokens }

/-- The count `tryConsume` and `addTokens` are given: floored, and no less than 0. -/
def wantOf (n : Number) : Except String ℕ :=
  match n with
  | .finite q =>
    if ⌊q⌋ < 0 then
      .error s!"PowerFlowControl: `n` must be a non-negative finite number (received {n})."
    else .ok ⌊q⌋.toNat
  | n => .error s!"PowerFlowControl: `n` must be a non-negative finite number (received {n})."

def tryConsume (f : Flow) (n : Number) (now : ℚ) : Flow × Except String Bool :=
  if f.disposed then (f, .ok false)
  else match wantOf n with
    | .error e => (f, .error e)
    | .ok 0 => (f, .ok true)
    | .ok (want + 1) =>
      let f := refill f now
      if ((want + 1 : ℕ) : ℚ) ≤ f.tokens then
        ({ f with tokens := f.tokens - ((want + 1 : ℕ) : ℚ) }, .ok true)
      else (f, .ok false)

/-- The calls of a run. `observe` does not read the clock; `now` is when it is made. -/
inductive Call where
  | observe (measured : Number) (dt : Option Number) (now : ℚ)
  | tryConsume (n : Number) (now : ℚ)

/-- When a call is made. -/
def Call.now : Call → ℚ
  | .observe _ _ now | .tryConsume _ now => now

structure History where
  flow : Flow
  admitted : List (ℚ × ℕ)
  rates : List (ℚ × ℚ)

def start (f : Flow) (now : ℚ) : History := ⟨f, [], [(now, f.rate)]⟩

/-- The tokens a call is answered `true` for. -/
def admits (f : Flow) (n : Number) (now : ℚ) : List (ℚ × ℕ) :=
  match (tryConsume f n now).2, wantOf n with
  | .ok true, .ok want => [(now, want)]
  | _, _ => []

def step (t : History) : Call → History
  | .observe measured dt now =>
    let flow := (observe t.flow measured dt).1
    { t with flow, rates := (now, flow.rate) :: t.rates }
  | .tryConsume n now =>
    { t with
      flow := (tryConsume t.flow n now).1
      admitted := t.admitted ++ admits t.flow n now }

/-! ## The integral of the rate -/

/-- What the rates give from `s` to `e`: the latest from when it was set, the others before. -/
def earned (s : ℚ) : ℚ → List (ℚ × ℚ) → ℚ
  | _, [] => 0
  | e, (t, rate) :: older => rate * max 0 (e - max s t) / 1000 + earned s (min e t) older

section
variable {s m e t rate : ℚ} {rates : List (ℚ × ℚ)}

theorem earned_nonneg (h : ∀ p ∈ rates, 0 ≤ p.2) : 0 ≤ earned s e rates := by
  induction rates generalizing e with
  | nil => exact le_rfl
  | cons p older ih =>
    have hrate : 0 ≤ p.2 := h p List.mem_cons_self
    have hspan : 0 ≤ p.2 * max 0 (e - max s p.1) / 1000 :=
      div_nonneg (mul_nonneg hrate (le_max_left _ _)) (by norm_num)
    exact add_nonneg hspan (ih fun q hq => h q (List.mem_cons_of_mem _ hq))

theorem earned_of_le (h : e ≤ s) : earned s e rates = 0 := by
  induction rates generalizing e with
  | nil => rfl
  | cons p older ih =>
    have hspan : max 0 (e - max s p.1) = 0 := max_eq_left (by linarith [le_max_left s p.1])
    rw [earned, hspan, ih ((min_le_left _ _).trans h)]
    simp

/-- A rate that is set later gives nothing before. -/
theorem earned_cons_of_le (h : m ≤ t) : earned s m ((t, rate) :: rates) = earned s m rates := by
  have hspan : max 0 (m - max s t) = 0 := max_eq_left (by linarith [le_max_right s t])
  rw [earned, hspan, min_eq_left h]
  simp

theorem earned_add (hsm : s ≤ m) (hme : m ≤ e) :
    earned s e rates = earned s m rates + earned m e rates := by
  induction rates generalizing e m with
  | nil => exact (add_zero 0).symm
  | cons p older ih =>
    obtain ⟨t, rate⟩ := p
    rcases le_total m t with hmt | htm
    · -- the latest rate was set after `m`
      have hsplit := ih hsm (le_min hme hmt)
      rw [earned_cons_of_le hmt, earned, earned, hsplit, max_eq_right hmt,
        max_eq_right (hsm.trans hmt)]
      ring
    · -- it was set before, and the others give nothing after
      have hrest : earned m (min e t) older = 0 := earned_of_le ((min_le_right _ _).trans htm)
      have hspan : max 0 (e - max s t) = max 0 (m - max s t) + max 0 (e - max m t) := by
        have hst : max s t ≤ m := max_le hsm htm
        have hfirst : 0 ≤ m - max s t := sub_nonneg.mpr hst
        have hlast : 0 ≤ e - m := sub_nonneg.mpr hme
        have hwhole : 0 ≤ e - max s t := sub_nonneg.mpr (hst.trans hme)
        rw [max_eq_left htm, max_eq_right hfirst, max_eq_right hlast, max_eq_right hwhole]
        ring
      rw [earned, earned, earned, hrest, hspan, min_eq_right htm, min_eq_right (htm.trans hme)]
      ring

theorem earned_mono (h : ∀ p ∈ rates, 0 ≤ p.2) (hsm : s ≤ m) (hme : m ≤ e) :
    earned s m rates ≤ earned s e rates := by
  rw [earned_add hsm hme]
  exact le_add_of_nonneg_right (earned_nonneg h)

/-- The rate in force at a moment: the latest that was set by then. -/
noncomputable def rateAt : List (ℚ × ℚ) → ℝ → ℝ
  | [], _ => 0
  | (t, rate) :: older, x => if (t : ℝ) ≤ x then rate else rateAt older x

theorem integrable_rateAt (rates : List (ℚ × ℚ)) (a b : ℝ) :
    IntervalIntegrable (rateAt rates) MeasureTheory.volume a b := by
  induction rates with
  | nil => exact intervalIntegrable_const
  | cons p older ih =>
    have hpiece : rateAt (p :: older) =
        (Set.Ici (p.1 : ℝ)).piecewise (fun _ => (p.2 : ℝ)) (rateAt older) := by
      funext x
      by_cases hx : (p.1 : ℝ) ≤ x
      · rw [Set.piecewise_eq_of_mem _ _ _ (Set.mem_Ici.mpr hx)]
        exact if_pos hx
      · rw [Set.piecewise_eq_of_notMem _ _ _ fun h => hx (Set.mem_Ici.mp h)]
        exact if_neg hx
    rw [hpiece, intervalIntegrable_iff] at *
    apply MeasureTheory.Integrable.piecewise measurableSet_Ici
    · exact (intervalIntegrable_iff.mp intervalIntegrable_const).integrableOn
    · exact ih.integrableOn

/-- `earned` is the integral of the rate in force, in tokens a second over milliseconds. -/
theorem earned_eq_integral {s e : ℚ} (hse : s ≤ e) (rates : List (ℚ × ℚ)) :
    (earned s e rates : ℝ) = (∫ x in (s : ℝ)..e, rateAt rates x) / 1000 := by
  induction rates generalizing e with
  | nil => simp [earned, rateAt]
  | cons p older ih =>
    obtain ⟨t, rate⟩ := p
    rcases le_total t s with hts | hst
    · -- set before the window began
      have hconst : ∫ x in (s : ℝ)..e, rateAt ((t, rate) :: older) x = ∫ x in (s : ℝ)..e, (rate : ℝ) := by
        apply intervalIntegral.integral_congr_Ioo_of_le (by exact_mod_cast hse)
        intro x hx
        exact if_pos ((Rat.cast_le.mpr hts).trans hx.1.le)
      rw [hconst, intervalIntegral.integral_const, earned, max_eq_left hts,
        max_eq_right (sub_nonneg.mpr hse), earned_of_le ((min_le_right e t).trans hts)]
      push_cast
      simp only [smul_eq_mul]
      ring
    · have hbefore : ∀ u : ℚ, s ≤ u → u ≤ t → ∫ x in (s : ℝ)..u, rateAt ((t, rate) :: older) x =
          ∫ x in (s : ℝ)..u, rateAt older x := by
        intro u hsu hut
        apply intervalIntegral.integral_congr_Ioo_of_le (by exact_mod_cast hsu)
        intro x hx
        exact if_neg (not_le.mpr (hx.2.trans_le (Rat.cast_le.mpr hut)))
      rcases le_total e t with het | hte
      · -- set after it
        rw [hbefore e hse het, earned_cons_of_le het]
        exact ih hse
      · -- set in it
        have hafter : ∫ x in (t : ℝ)..e, rateAt ((t, rate) :: older) x = ∫ x in (t : ℝ)..e, (rate : ℝ) := by
          apply intervalIntegral.integral_congr_Ioo_of_le (by exact_mod_cast hte)
          intro x hx
          exact if_pos hx.1.le
        rw [← intervalIntegral.integral_add_adjacent_intervals (integrable_rateAt _ _ t)
          (integrable_rateAt _ _ _), hbefore t hst le_rfl, hafter, intervalIntegral.integral_const,
          earned, max_eq_right hst, max_eq_right (sub_nonneg.mpr hte), min_eq_right hte, Rat.cast_add,
          ih hst]
        push_cast
        simp only [smul_eq_mul]
        ring

end

/-! ## What every call keeps -/

/-- What the constructor makes, and every call keeps. -/
structure Holds (f : Flow) : Prop where
  capacity : 1 ≤ f.capacity
  minRate : 0 ≤ f.minRate
  rate : PowerServo.Within (some f.minRate) f.maxRate f.rate
  initialRate : PowerServo.Within (some f.minRate) f.maxRate f.initialRate
  tokens : f.tokens ≤ f.capacity
  tokens_nonneg : 0 ≤ f.tokens
  remainder : 0 ≤ f.tokenRemainder
  remainder_lt : f.tokenRemainder < 1
  min : f.servo.min = some f.minRate
  max : f.servo.max = f.maxRate
  ordered : PowerServo.Ordered (some f.minRate) f.maxRate

theorem Holds.rate_nonneg {f : Flow} (h : Holds f) : 0 ≤ f.rate :=
  h.minRate.trans (h.rate.1 _ rfl)

theorem holds_new {o : Options} {now : ℚ} {f : Flow} (h : new o now = .ok f) :
    Holds f ∧ f.lastRefill = now ∧ f.tokens = f.capacity ∧ f.tokenRemainder = 0 := by
  obtain ⟨capacity, hcapacity, h⟩ := bind_eq_ok.mp h
  obtain ⟨initialRate, hinitial, h⟩ := bind_eq_ok.mp h
  obtain ⟨minRate, hmin, h⟩ := bind_eq_ok.mp h
  obtain ⟨maxRate, hmax, h⟩ := bind_eq_ok.mp h
  split at h
  · cases h
  · split at h
    · cases h
    · next hwithin =>
      obtain ⟨servo, hservo, h⟩ := bind_eq_ok.mp h
      obtain ⟨hservoMin, hservoMax, hordered⟩ := PowerServo.new_spec hservo
      have hrate : PowerServo.Within (some minRate) maxRate initialRate := by
        rw [Bool.or_eq_true, not_or, decide_eq_true_eq, Option.any_eq_true] at hwithin
        refine ⟨fun l hl => ?_, fun u hu => ?_⟩
        · rw [← Option.some.inj hl]
          exact not_lt.mp hwithin.1
        · exact not_lt.mp fun hlt => hwithin.2 ⟨u, hu, decide_eq_true hlt⟩
      have hcapacity : (1 : ℚ) ≤ capacity := assertLimitRequired_ge hcapacity le_rfl
      cases h
      exact ⟨⟨hcapacity, assertLimitRequired_ge hmin le_rfl, hrate, hrate, le_rfl,
        zero_le_one.trans hcapacity, le_rfl, one_pos, hservoMin, hservoMax, hordered⟩,
        rfl, rfl, rfl⟩

theorem holds_observe {f : Flow} (h : Holds f) (measured : Number) (dt : Option Number) :
    Holds (observe f measured dt).1 := by
  unfold observe
  split
  · exact h
  · split
    · exact h
    · next servo next hstep =>
      have hordered : PowerServo.Ordered f.servo.min f.servo.max := by
        rw [h.min, h.max]
        exact h.ordered
      obtain ⟨hsame, hwithin⟩ := PowerServo.step_spec hordered hstep
      rw [h.min, h.max] at hwithin
      exact { h with
        rate := hwithin
        min := hsame.min.trans h.min
        max := hsame.max.trans h.max }

def held (f : Flow) : ℚ := f.tokens + f.tokenRemainder

structure Refilled (f f' : Flow) (now : ℚ) : Prop where
  capacity : f'.capacity = f.capacity
  rate : f'.rate = f.rate
  holds : Holds f'
  lastRefill : f'.lastRefill = now
  held_le : held f' ≤ held f + (now - f.lastRefill) / 1000 * f.rate

section
variable {f : Flow} {now s e spare : ℚ}

theorem refill_spec (hf : Holds f) (h : f.lastRefill ≤ now) : Refilled f (refill f now) now := by
  have hcredit : 0 ≤ (now - f.lastRefill) / 1000 * f.rate :=
    mul_nonneg (div_nonneg (sub_nonneg.mpr h) (by norm_num)) hf.rate_nonneg
  unfold refill
  split
  · exact ⟨rfl, rfl, { hf with }, rfl, le_add_of_nonneg_right hcredit⟩
  · split
    · next helapsed =>
      have hlast : f.lastRefill = now := by linarith [le_max_right 0 (now - f.lastRefill)]
      exact ⟨rfl, rfl, hf, hlast, le_add_of_nonneg_right hcredit⟩
    · have hadd : 0 ≤ tokensToAdd f now := add_nonneg hcredit hf.remainder
      have hfloor := Int.floor_le (tokensToAdd f now)
      have hlt := Int.lt_floor_add_one (tokensToAdd f now)
      have hwhole : (0 : ℚ) ≤ ⌊tokensToAdd f now⌋ := by exact_mod_cast Int.floor_nonneg.mpr hadd
      have hcapacity : 0 ≤ f.capacity := zero_le_one.trans hf.capacity
      dsimp only
      refine ⟨rfl, rfl, { hf with
        tokens := ?_, tokens_nonneg := ?_, remainder := ?_, remainder_lt := ?_ }, rfl, ?_⟩
      · dsimp only
        split
        · exact min_le_left _ _
        · exact hf.tokens
      · dsimp only
        split
        · exact le_min hcapacity (add_nonneg hf.tokens_nonneg hwhole)
        · exact hf.tokens_nonneg
      · exact sub_nonneg.mpr hfloor
      · dsimp only
        linarith
      · have hmin := min_le_right f.capacity (f.tokens + ⌊tokensToAdd f now⌋)
        have hsplit : tokensToAdd f now =
            (now - f.lastRefill) / 1000 * f.rate + f.tokenRemainder := rfl
        unfold held
        dsimp only
        split <;> linarith

def Call.refills : Call → Option ℚ
  | .observe _ _ _ => none
  | .tryConsume n now =>
    match wantOf n with
    | .ok (_ + 1) => some now
    | _ => none

/-- What `tryConsume` does at a reading: nothing, or a refill, after which it takes what is
there, or not. -/
inductive Does (f : Flow) (now : ℚ) (refills : Option ℚ) : Flow → List (ℚ × ℕ) → Prop where
  | nothing : Does f now refills f []
  | none : Does f now refills f [(now, 0)]
  | refuses (h : refills = some now) : Does f now refills (refill f now) []
  | takes (h : refills = some now) (want : ℕ) (hwant : want ≤ (refill f now).tokens) :
      Does f now refills { refill f now with tokens := (refill f now).tokens - want } [(now, want)]

theorem tryConsume_does (f : Flow) (n : Number) (now : ℚ) :
    Does f now (Call.tryConsume n now).refills (tryConsume f n now).1 (admits f n now) := by
  cases hdisposed : f.disposed with
  | true =>
    simp only [tryConsume, admits, hdisposed, if_true]
    exact .nothing
  | false =>
    cases hwant : wantOf n with
    | error e =>
      simp only [tryConsume, admits, hdisposed, hwant, Bool.false_eq_true, if_false]
      exact .nothing
    | ok want =>
      cases want with
      | zero =>
        simp only [tryConsume, admits, hdisposed, hwant, Bool.false_eq_true, if_false]
        exact .none
      | succ want =>
        have hrefills : (Call.tryConsume n now).refills = some now := by
          simp only [Call.refills, hwant]
        rw [hrefills]
        by_cases hheld : ((want + 1 : ℕ) : ℚ) ≤ (refill f now).tokens
        · simp only [tryConsume, admits, hdisposed, hwant, Bool.false_eq_true, if_false,
            if_pos hheld]
          exact .takes rfl (want + 1) hheld
        · simp only [tryConsume, admits, hdisposed, hwant, Bool.false_eq_true, if_false,
            if_neg hheld]
          exact .refuses rfl

/-! ## The tokens of a window -/

/-- The tokens admitted at the readings from `s` to `e`. -/
abbrev unitsIn (s e : ℚ) (log : List (ℚ × ℕ)) : ℕ := unitsAt (fun t => s ≤ t ∧ t ≤ e) log

/-- A refill credits no more than the rates that were in force since the last. -/
def InForce (t : History) (c : Call) : Prop :=
  ∀ now ∈ c.refills,
    (now - t.flow.lastRefill) / 1000 * t.flow.rate ≤ earned t.flow.lastRefill now t.rates

instance (t : History) (c : Call) : Decidable (InForce t c) :=
  inferInstanceAs (Decidable (∀ now ∈ c.refills,
    (now - t.flow.lastRefill) / 1000 * t.flow.rate ≤ earned t.flow.lastRefill now t.rates))

def Spared (spare : ℚ) (t : History) (c : Call) : Prop :=
  ∀ now ∈ c.refills, held (refill t.flow now) ≤ t.flow.capacity + spare

/-- What every call keeps, on a clock that does not go back. -/
structure Kept (t : History) : Prop where
  holds : Holds t.flow
  rates : ∀ p ∈ t.rates, 0 ≤ p.2

/-- What was taken in the window and what is held are within the capacity, what is spared, and
what the rates have given since the window began. -/
structure Bounded (spare s e : ℚ) (t : History) : Prop where
  held : held t.flow ≤ t.flow.capacity + spare
  began : 0 < unitsIn s e t.admitted → s ≤ t.flow.lastRefill
  taken : 0 < unitsIn s e t.admitted →
    unitsIn s e t.admitted + PowerFlowControl.held t.flow ≤
      t.flow.capacity + spare + earned s t.flow.lastRefill t.rates
  units : 0 < unitsIn s e t.admitted →
    (unitsIn s e t.admitted : ℚ) ≤
      t.flow.capacity + spare + earned s (min e t.flow.lastRefill) t.rates

theorem bounded_observe {t : History} (hlast : t.flow.lastRefill ≤ now)
    (hb : Bounded spare s e t) (measured : Number) (dt : Option Number) :
    Bounded spare s e (step t (.observe measured dt now)) := by
  have hframe : (observe t.flow measured dt).1.lastRefill = t.flow.lastRefill ∧
      (observe t.flow measured dt).1.capacity = t.flow.capacity ∧
      PowerFlowControl.held (observe t.flow measured dt).1 = PowerFlowControl.held t.flow := by
    unfold observe
    split
    · exact ⟨rfl, rfl, rfl⟩
    · split <;> exact ⟨rfl, rfl, rfl⟩
  obtain ⟨hrefill, hcapacity, hheld⟩ := hframe
  simp only [step]
  refine ⟨?_, ?_, ?_, ?_⟩
  · dsimp only
    rw [hheld, hcapacity]
    exact hb.held
  · dsimp only
    rw [hrefill]
    exact hb.began
  · dsimp only
    rw [hheld, hcapacity, hrefill, earned_cons_of_le hlast]
    exact hb.taken
  · dsimp only
    rw [hcapacity, hrefill, earned_cons_of_le ((min_le_right _ _).trans hlast)]
    exact hb.units

theorem bounded_refill {t : History} (hse : s ≤ e) (hk : Kept t) (hlast : t.flow.lastRefill ≤ now)
    (hforce : (now - t.flow.lastRefill) / 1000 * t.flow.rate ≤ earned t.flow.lastRefill now t.rates)
    (hspared : PowerFlowControl.held (refill t.flow now) ≤ t.flow.capacity + spare)
    (hb : Bounded spare s e t) : Bounded spare s e { t with flow := refill t.flow now } := by
  have href := refill_spec hk.holds hlast
  refine ⟨?_, ?_, ?_, ?_⟩
  · dsimp only
    rw [href.capacity]
    exact hspared
  · dsimp only
    rw [href.lastRefill]
    exact fun hunits => (hb.began hunits).trans hlast
  · intro hunits
    have hbound := hb.taken hunits
    have hadd : earned s now t.rates =
        earned s t.flow.lastRefill t.rates + earned t.flow.lastRefill now t.rates :=
      earned_add (hb.began hunits) hlast
    have hheld := href.held_le
    dsimp only at hunits ⊢
    rw [href.capacity, href.lastRefill, hadd]
    linarith
  · intro hunits
    have hbound := hb.units hunits
    have hmono := earned_mono hk.rates (le_min hse (hb.began hunits)) (min_le_min_left e hlast)
    dsimp only at hunits ⊢
    rw [href.capacity, href.lastRefill]
    linarith

theorem bounded_take {t : History} {want : ℕ} (hk : Kept t)
    (hlast : t.flow.lastRefill = now) (hwant : want ≤ t.flow.tokens) (hb : Bounded spare s e t) :
    Bounded spare s e { t with
      flow := { t.flow with tokens := t.flow.tokens - want }
      admitted := t.admitted ++ [(now, want)] } := by
  have hadd : unitsIn s e (t.admitted ++ [(now, want)]) =
      unitsIn s e t.admitted + if s ≤ now ∧ now ≤ e then want else 0 := by
    rw [unitsIn, unitsAt_append, unitsAt_single]
  have hwant0 : (0 : ℚ) ≤ want := want.cast_nonneg
  have hrem := hk.holds.remainder
  have hheld := hb.held
  unfold PowerFlowControl.held at hheld
  by_cases hin : s ≤ now ∧ now ≤ e
  · rw [if_pos hin] at hadd
    -- before the call what was taken and is held is bounded, whether anything was taken or not
    have hbefore : (unitsIn s e t.admitted : ℚ) + (t.flow.tokens + t.flow.tokenRemainder) ≤
        t.flow.capacity + spare + earned s now t.rates := by
      rcases Nat.eq_zero_or_pos (unitsIn s e t.admitted) with hnone | hsome
      · have hearned : 0 ≤ earned s now t.rates := earned_nonneg hk.rates
        rw [hnone]
        push_cast
        linarith
      · have htaken := hb.taken hsome
        rwa [hlast] at htaken
    refine ⟨?_, ?_, ?_, ?_⟩
    · simp only [PowerFlowControl.held]
      linarith
    · intro _
      exact hlast.ge.trans' hin.1
    · intro _
      simp only [PowerFlowControl.held, hadd, hlast]
      push_cast
      linarith
    · intro _
      simp only [hadd, hlast, min_eq_right hin.2]
      push_cast
      linarith
  · rw [if_neg hin, Nat.add_zero] at hadd
    refine ⟨?_, ?_, ?_, ?_⟩
    · simp only [PowerFlowControl.held]
      linarith
    · simp only [hadd]
      exact hb.began
    · intro hunits
      simp only [hadd] at hunits ⊢
      have htaken := hb.taken hunits
      unfold PowerFlowControl.held at htaken
      simp only [PowerFlowControl.held]
      linarith
    · simp only [hadd]
      exact hb.units

theorem step_capacity (t : History) (c : Call) : (step t c).flow.capacity = t.flow.capacity := by
  cases c with
  | observe measured dt now =>
    simp only [step]
    unfold observe
    split
    · rfl
    · split <;> rfl
  | tryConsume n now =>
    have hrefill : (refill t.flow now).capacity = t.flow.capacity := by
      unfold refill
      split
      · rfl
      · split <;> rfl
    have hdoes := tryConsume_does t.flow n now
    simp only [step]
    generalize (tryConsume t.flow n now).1 = f' at hdoes
    generalize admits t.flow n now = log at hdoes
    cases hdoes with
    | nothing | none => rfl
    | refuses | takes => exact hrefill

theorem step_kept {t : History} {c : Call} (hk : Kept t) (hlast : t.flow.lastRefill ≤ c.now) :
    Kept (step t c) ∧ (step t c).flow.lastRefill ≤ c.now := by
  cases c with
  | observe measured dt now =>
    have hholds := holds_observe hk.holds measured dt
    refine ⟨⟨hholds, ?_⟩, ?_⟩
    · intro p hp
      rcases List.mem_cons.mp hp with rfl | hp
      · exact hholds.rate_nonneg
      · exact hk.rates p hp
    · simp only [step]
      unfold observe
      split
      · exact hlast
      · split <;> exact hlast
  | tryConsume n now =>
    have hdoes := tryConsume_does t.flow n now
    have href := refill_spec hk.holds hlast
    simp only [step]
    generalize (tryConsume t.flow n now).1 = f' at hdoes
    generalize admits t.flow n now = log at hdoes
    cases hdoes with
    | nothing | none => exact ⟨⟨hk.holds, hk.rates⟩, hlast⟩
    | refuses => exact ⟨⟨href.holds, hk.rates⟩, href.lastRefill.le⟩
    | takes _ want hwant =>
      have hwant0 : (0 : ℚ) ≤ want := want.cast_nonneg
      have hholds := href.holds
      refine ⟨⟨{ hholds with tokens := ?_, tokens_nonneg := ?_ }, hk.rates⟩, href.lastRefill.le⟩
      · exact (sub_le_self _ hwant0).trans hholds.tokens
      · exact sub_nonneg.mpr hwant

theorem step_bounded {t : History} {c : Call} (hse : s ≤ e) (hk : Kept t)
    (hlast : t.flow.lastRefill ≤ c.now) (hforce : InForce t c) (hspared : Spared spare t c)
    (hb : Bounded spare s e t) : Bounded spare s e (step t c) := by
  cases c with
  | observe measured dt now => exact bounded_observe hlast hb measured dt
  | tryConsume n now =>
    have hdoes := tryConsume_does t.flow n now
    have href := refill_spec hk.holds hlast
    simp only [step]
    generalize (tryConsume t.flow n now).1 = f' at hdoes
    generalize admits t.flow n now = log at hdoes
    cases hdoes with
    | nothing => simpa using hb
    | none =>
      have hsame : unitsIn s e (t.admitted ++ [(now, 0)]) = unitsIn s e t.admitted := by
        rw [unitsIn, unitsAt_append, unitsAt_single]
        simp
      exact ⟨hb.held, by simpa [hsame] using hb.began, by simpa [hsame] using hb.taken,
        by simpa [hsame] using hb.units⟩
    | refuses hrefills =>
      rw [List.append_nil]
      exact bounded_refill hse hk hlast (hforce now hrefills) (hspared now hrefills) hb
    | takes hrefills want hwant =>
      have hb' := bounded_refill hse hk hlast (hforce now hrefills) (hspared now hrefills) hb
      exact bounded_take (t := { t with flow := refill t.flow now }) ⟨href.holds, hk.rates⟩
        href.lastRefill hwant hb'

end

/-- A refill that adds something leaves the tokens and the carry within the capacity. -/
def Uncarried (t : History) (c : Call) : Prop :=
  ∀ now ∈ c.refills, 0 < t.flow.rate → t.flow.lastRefill < now →
    min t.flow.capacity (t.flow.tokens + ⌊tokensToAdd t.flow now⌋) +
      Int.fract (tokensToAdd t.flow now) ≤ t.flow.capacity

instance (t : History) (c : Call) : Decidable (Uncarried t c) :=
  inferInstanceAs (Decidable (∀ now ∈ c.refills, 0 < t.flow.rate → t.flow.lastRefill < now →
    min t.flow.capacity (t.flow.tokens + ⌊tokensToAdd t.flow now⌋) +
      Int.fract (tokensToAdd t.flow now) ≤ t.flow.capacity))

theorem spared_of_uncarried {t : History} {c : Call} (hk : Kept t) (h : Uncarried t c)
    (hheld : held t.flow ≤ t.flow.capacity) : Spared 0 t c := by
  intro now hnow
  rw [add_zero]
  unfold refill
  split
  · exact hheld
  · next hrate =>
    split
    · exact hheld
    · next helapsed =>
      have hlast : t.flow.lastRefill < now := by
        by_contra hle
        exact helapsed (max_le le_rfl (by linarith [not_lt.mp hle]))
      have hbound := h now hnow (not_le.mp hrate) hlast
      rw [← Int.self_sub_floor] at hbound
      unfold held
      dsimp only
      split
      · exact hbound
      · next hwhole =>
        -- nothing whole is added, and the minimum is what was there
        have hadd : 0 ≤ tokensToAdd t.flow now := add_nonneg
          (mul_nonneg (div_nonneg (sub_nonneg.mpr hlast.le) (by norm_num)) hk.holds.rate_nonneg)
          hk.holds.remainder
        have hzero : ⌊tokensToAdd t.flow now⌋ = 0 :=
          le_antisymm (not_lt.mp hwhole) (Int.floor_nonneg.mpr hadd)
        rw [hzero, Int.cast_zero, add_zero, min_eq_right hk.holds.tokens] at hbound
        rw [hzero, Int.cast_zero]
        exact hbound

/-- Where no refill credits more than the rates that were in force, the tokens of a window are
within the capacity, what is spared beside it, and the integral of the rate. -/
theorem admitted_le {o : Options} {builtAt : ℚ} {f : Flow} (hnew : new o builtAt = .ok f)
    {calls : List Call} (hclock : (builtAt :: calls.map Call.now).Pairwise (· ≤ ·)) {spare : ℚ}
    (hspare : 0 ≤ spare) {ok : History → Call → Prop}
    (hok : ∀ t c, Kept t → t.flow.lastRefill ≤ c.now → held t.flow ≤ t.flow.capacity + spare →
      ok t c → InForce t c ∧ Spared spare t c)
    (hmeets : Meets step ok (start f builtAt) calls) {s e : ℚ} (hse : s ≤ e) :
    (unitsIn s e (run step (start f builtAt) calls).admitted : ℚ) ≤
      f.capacity + spare + earned s e (run step (start f builtAt) calls).rates := by
  obtain ⟨hf, hlast, htokens, hremainder⟩ := holds_new hnew
  have hkept : Kept (start f builtAt) := by
    refine ⟨hf, fun p hp => ?_⟩
    rw [List.mem_singleton.mp hp]
    exact hf.rate_nonneg
  have hstart : Bounded spare s e (start f builtAt) := by
    have hnone : ¬0 < unitsIn s e (start f builtAt).admitted := lt_irrefl 0
    refine ⟨?_, fun h => absurd h hnone, fun h => absurd h hnone, fun h => absurd h hnone⟩
    simp only [held, start, htokens, hremainder]
    linarith
  have hclocked : Meets step (fun t c => t.flow.lastRefill ≤ c.now) (start f builtAt) calls := by
    obtain ⟨hbuilt, hclock⟩ := List.pairwise_cons.mp hclock
    refine meets_of_clock Call.now (fun t now => t.flow.lastRefill ≤ now)
      (fun t r r' h hr => h.trans hr) (fun t c => step_kept) hkept ?_ hclock
    intro c hc
    exact hlast.le.trans (hbuilt _ (List.mem_map_of_mem hc))
  have hrun : Always step
      (fun t => Kept t ∧ Bounded spare s e t ∧ t.flow.capacity = f.capacity)
      (start f builtAt) calls := by
    refine always_of_meets ?_ ⟨hkept, hstart, rfl⟩ (hclocked.and hmeets)
    rintro t c ⟨hk, hb, hcapacity⟩ ⟨hlast, hmet⟩
    obtain ⟨hforce, hspared⟩ := hok t c hk hlast hb.held hmet
    refine ⟨(step_kept hk hlast).1, step_bounded hse hk hlast hforce hspared hb, ?_⟩
    exact (step_capacity t c).trans hcapacity
  obtain ⟨hk, hb, hcapacity⟩ := hrun.last
  rw [← hcapacity]
  rcases Nat.eq_zero_or_pos (unitsIn s e (run step (start f builtAt) calls).admitted) with
    hnone | hsome
  · have hearned : 0 ≤ earned s e (run step (start f builtAt) calls).rates := earned_nonneg hk.rates
    have hcap := hk.holds.capacity
    rw [hnone]
    push_cast
    linarith
  · have hunits := hb.units hsome
    have hmono := earned_mono hk.rates (le_min hse (hb.began hsome)) (min_le_left e _)
    linarith

/-- Where no refill credits more than the rates that were in force, nor leaves a carry beside a
full bucket, the tokens of a window are within the capacity and the integral of the rate, which
is in tokens a second over milliseconds. -/
theorem rate_respected {o : Options} {builtAt : ℚ} {f : Flow} (hnew : new o builtAt = .ok f)
    (calls : List Call) (hclock : (builtAt :: calls.map Call.now).Pairwise (· ≤ ·))
    (hmeets : Meets step (fun t c => InForce t c ∧ Uncarried t c) (start f builtAt) calls)
    {t1 t2 : ℚ} (h : t1 < t2) :
    (unitsIn t1 t2 (run step (start f builtAt) calls).admitted : ℝ) ≤
      f.capacity + (∫ x in (t1 : ℝ)..t2, rateAt (run step (start f builtAt) calls).rates x) / 1000 := by
  have hle := admitted_le hnew hclock le_rfl (fun t c hk _ hheld hmet =>
    ⟨hmet.1, spared_of_uncarried hk hmet.2 (by simpa using hheld)⟩) hmeets h.le
  rw [add_zero] at hle
  rw [← earned_eq_integral h.le]
  exact_mod_cast hle

/-- A bucket of two tokens at one a second, with a servo that answers what is missing to the
setpoint. -/
def twoTokens : Options :=
  { capacity := some 2, initialRate := some 1, maxRate := some 10
    setpoint := some (.finite 1), kp := some (.finite 1) }

/-- What the constructor makes of it. -/
def twoTokensBuilt : Flow :=
  { capacity := 2, initialRate := 1, minRate := 0, maxRate := some 10, tokens := 2, rate := 1
    lastRefill := 0, tokenRemainder := 0, observations := 0, disposed := false
    servo :=
      { setpoint := 1, kp := 1, ki := 0, kd := 0, derivativeFilter := 0, min := some 0
        max := some 10, defaultDt := 1 } }

theorem new_twoTokens : new twoTokens 0 = .ok twoTokensBuilt := by decide +kernel

/-- The rate is doubled where the bucket is emptied, and half a second earns a token. -/
def doubled : List Call :=
  [.tryConsume (.finite 2) 0, .observe (.finite (-1)) none 0, .tryConsume (.finite 1) 500]

theorem rate_respected_doubled :
    (unitsIn 0 500 (run step (start twoTokensBuilt 0) doubled).admitted : ℝ) ≤
      twoTokensBuilt.capacity + (∫ x in ((0 : ℚ) : ℝ)..(500 : ℚ),
        rateAt (run step (start twoTokensBuilt 0) doubled).rates x) / 1000 :=
  rate_respected new_twoTokens doubled (by decide +kernel) (by decide +kernel) (by norm_num)

/-- The bucket is emptied and closed, and opened again two seconds later. -/
def reopened : List Call :=
  [.tryConsume (.finite 2) 0, .observe (.finite 1) none 0, .observe (.finite 0) none 2000,
    .tryConsume (.finite 2) 2000]

/-- The closed time is credited at the rate the bucket reopens with. -/
theorem burst_on_reopening : new twoTokens 0 = .ok twoTokensBuilt ∧
    (0 :: reopened.map Call.now).Pairwise (· ≤ ·) ∧
    ¬(unitsIn 0 2000 (run step (start twoTokensBuilt 0) reopened).admitted : ℝ) ≤
      twoTokensBuilt.capacity + (∫ x in ((0 : ℚ) : ℝ)..(2000 : ℚ),
        rateAt (run step (start twoTokensBuilt 0) reopened).rates x) / 1000 := by
  refine ⟨new_twoTokens, by decide +kernel, ?_⟩
  have hburst : ¬(unitsIn 0 2000 (run step (start twoTokensBuilt 0) reopened).admitted : ℚ) ≤
      twoTokensBuilt.capacity +
        earned 0 2000 (run step (start twoTokensBuilt 0) reopened).rates := by
    decide +kernel
  rw [← earned_eq_integral (by norm_num)]
  exact_mod_cast hburst

end PerformanceHelpers.PowerFlowControl
