import PerformanceHelpers.PowerServo.Controller

/- Steps over no time (`src/helpers/powerServo.js`).

   A step of `dt = 0` that repeats what the step before was handed finds the integral where the
   clamp left it, and adds nothing to it. The derivative is meant to be held as well ("the
   derivative is left at its current value rather than zeroed"), but the slope it has no time to
   take is put in as 0: the filter pulls the derivative towards it, and without a filter the
   derivative is that 0.

   What is proved:
     1. `step_zeroLength` — all that such a step changes is the derivative, by one factor below 1,
        and what is only reported.
     2. `step_quiet` — what is only reported, no later step reads, where no feedforward function
        is given.
     3. `inert_iff` — so such steps are inert exactly where the derivative is 0 already. -/
namespace PerformanceHelpers.PowerServo.Controller

def zeroLength (x : Sample) : Sample := { x with dt := some (.finite 0) }

/-- The controller after some steps. -/
def after (c : Controller) (x : Sample) : Controller := (c.step x).1

def decay (s : Servo) : ℚ := if s.derivativeFilter = 0 then 0 else 1 - s.derivativeFilter

def quiet (c : Controller) : Controller := { c with output := 0, error := 0, saturated := false }

section
variable {c c' : Controller} {x : Sample} {g : ℚ}

/-! ## What is only reported -/

theorem openLoop_gain (hgain : c.feedforward = .gain g) (x : Sample) :
    openLoop c x = .ok (if g ≠ 0 then g * x.disturbance else 0) := by
  unfold openLoop
  rw [hgain]

theorem sampled_quiet (c : Controller) (x : Sample) (measured : ℚ) :
    sampled (quiet c) x measured =
      { sampled c x measured with output := 0, error := 0, saturated := false } := by
  unfold sampled differentiate quiet
  dsimp only
  split <;> rfl

theorem close_quiet (s : Servo) (ff error h : ℚ) :
    close { s with output := 0, error := 0, saturated := false } ff error h = close s ff error h := by
  unfold close integrateBeside
  dsimp only
  split <;> rfl

/-- What is only reported, no step reads. -/
theorem step_quiet (hgain : c.feedforward = .gain g) (x : Sample) :
    ((quiet c).step x).2 = (c.step x).2 ∧ quiet ((quiet c).step x).1 = quiet (c.step x).1 := by
  have hff := openLoop_gain hgain x
  have hff' := openLoop_gain (c := quiet c) hgain x
  unfold step
  rw [hff, hff']
  cases x.measured with
  | finite measured =>
    dsimp only
    rw [sampled_quiet, close_quiet]
    exact ⟨rfl, rfl⟩
  | _ => exact ⟨rfl, rfl⟩

def Alike (c c' : Controller) : Prop := quiet c = quiet c'

/-- A field that is not reported is the same. -/
theorem Alike.field {α : Type} (h : Alike c c') (f : Controller → α) (hf : ∀ c, f (quiet c) = f c) : f c = f c' :=
  (hf c).symm.trans ((congrArg f h).trans (hf c'))

theorem Alike.step (h : Alike c c') (hgain : c.feedforward = .gain g) (x : Sample) :
    (c.step x).2 = (c'.step x).2 ∧ Alike (after c x) (after c' x) := by
  have hgain' : c'.feedforward = .gain g := (h.field Controller.feedforward fun _ => rfl).symm.trans hgain
  obtain ⟨hanswer, hquiet⟩ := step_quiet hgain x
  obtain ⟨hanswer', hquiet'⟩ := step_quiet hgain' x
  rw [h] at hanswer hquiet
  exact ⟨hanswer.symm.trans hanswer', hquiet.symm.trans hquiet'⟩

theorem Alike.answers_eq (h : Alike c c') (hgain : c.feedforward = .gain g) (xs : List Sample) :
    answers Controller.step c xs = answers Controller.step c' xs := by
  induction xs generalizing c c' with
  | nil => rfl
  | cons x xs ih =>
    obtain ⟨hanswer, hnext⟩ := h.step hgain x
    rw [answers, answers, hanswer]
    congr 1
    exact ih hnext ((step_fixed c x).2.trans hgain)

/-! ## One step over no time -/

structure Settled (c : Controller) (x : Sample) (measured ff : ℚ) : Prop where
  sample : x.measured = .finite measured
  opened : openLoop c x = .ok ff
  setpoint : c.setpoint = x.setpoint
  previousMeasured : c.previousMeasured = some measured
  kept : c.ki ≠ 0 → Kept c.toServo ff (x.setpoint - measured)
  idle : c.kd = 0 → c.derivative = 0

/-- An integral that is kept stays over no time. -/
theorem integrateBeside_idle {s : Servo} {ff error : ℚ} (h : s.ki ≠ 0 → Kept s ff error) :
    integrateBeside s ff error 0 = s := by
  unfold integrateBeside
  by_cases hki : s.ki = 0
  · rw [if_pos hki]
  · obtain ⟨hlow, hhigh⟩ := h hki
    rw [if_neg hki]
    have hno : ¬(s.min.map fun m => m - ff - s.kp * error).any
        (fun l => decide (s.ki * (s.integral + error * 0) < l)) = true := by
      rw [Option.any_eq_true]
      rintro ⟨l, hl, hlt⟩
      obtain ⟨m, hm, rfl⟩ := Option.map_eq_some_iff.mp hl
      rw [mul_zero, add_zero, decide_eq_true_eq] at hlt
      exact absurd (hlow m hm) hlt.not_ge
    have hno' : ¬(s.max.map fun m => m - ff - s.kp * error).any
        (fun h => decide (h < s.ki * (s.integral + error * 0))) = true := by
      rw [Option.any_eq_true]
      rintro ⟨u, hu, hlt⟩
      obtain ⟨m, hm, rfl⟩ := Option.map_eq_some_iff.mp hu
      rw [mul_zero, add_zero, decide_eq_true_eq] at hlt
      exact absurd (hhigh m hm) hlt.not_ge
    dsimp only
    rw [if_neg hno, if_neg hno', mul_zero, add_zero]

theorem close_idle {s : Servo} {ff error : ℚ} (h : s.ki ≠ 0 → Kept s ff error) :
    { (close s ff error 0).1 with output := 0, error := 0, saturated := false } =
      { s with output := 0, error := 0, saturated := false } := by
  unfold close
  dsimp only
  rw [integrateBeside_idle h]

/-- The slope that is not taken is put in as 0. -/
theorem differentiate_idle {s : Servo} {measured : ℚ} (hprevious : s.previousMeasured = some measured)
    (hidle : s.kd = 0 → s.derivative = 0) :
    differentiate s measured 0 = { s with derivative := s.derivative * decay s } := by
  have hderivative : (differentiate s measured 0).derivative = s.derivative * decay s := by
    unfold differentiate decay
    by_cases hkd : s.kd = 0
    · rw [if_pos hkd, hidle hkd, zero_mul]
    · rw [if_neg hkd, hprevious]
      dsimp only
      rw [if_neg (lt_irrefl _)]
      split
      · rw [mul_zero]
      · ring
  rw [← hderivative]
  unfold differentiate
  split <;> rfl

/-- All that a step over no time changes is the derivative, and what is reported. -/
theorem step_zeroLength {measured ff : ℚ} (h : Settled c x measured ff) :
    Alike (after c (zeroLength x)) { c with derivative := c.derivative * decay c.toServo } := by
  have hspan : span c.toServo (zeroLength x).dt = 0 := max_self 0
  have hsampled : sampled c (zeroLength x) measured = { c.toServo with derivative := c.derivative * decay c.toServo } := by
    unfold sampled
    dsimp only [zeroLength] at hspan ⊢
    rw [← h.setpoint, hspan, differentiate_idle h.previousMeasured h.idle, ← h.previousMeasured]
  have hff : openLoop c (zeroLength x) = .ok ff := h.opened
  have hmeasured : (zeroLength x).measured = .finite measured := h.sample
  have hkept : (sampled c (zeroLength x) measured).ki ≠ 0 →
      Kept (sampled c (zeroLength x) measured) ff ((zeroLength x).setpoint - measured) := by
    rw [hsampled]
    exact h.kept
  have hclosed := close_idle hkept
  unfold after step
  rw [hmeasured, hff]
  dsimp only
  rw [hspan]
  unfold Alike quiet
  rw [Controller.mk.injEq]
  exact ⟨hclosed.trans (by rw [hsampled]), rfl⟩

/-- A step over no time leaves a controller that has just been stepped as one. -/
theorem Settled.of_alike {measured ff : ℚ} (h : Settled c x measured ff) {d : ℚ} (hd : c.kd = 0 → d = 0)
    (halike : Alike c' { c with derivative := d }) : Settled c' x measured ff := by
  have hki := halike.field (fun c => c.ki) fun _ => rfl
  have hkd := halike.field (fun c => c.kd) fun _ => rfl
  have hopened := h.opened
  have hkept := h.kept
  unfold openLoop at hopened
  unfold Kept at hkept
  refine ⟨h.sample, ?_, ?_, ?_, ?_, ?_⟩
  · unfold openLoop
    rw [halike.field (fun c => c.feedforward) fun _ => rfl]
    exact hopened
  · exact (halike.field (fun c => c.setpoint) fun _ => rfl).trans h.setpoint
  · exact (halike.field (fun c => c.previousMeasured) fun _ => rfl).trans h.previousMeasured
  · unfold Kept
    rw [hki, halike.field (fun c => c.kp) fun _ => rfl, halike.field (fun c => c.min) fun _ => rfl,
      halike.field (fun c => c.max) fun _ => rfl, halike.field (fun c => c.integral) fun _ => rfl]
    exact hkept
  · rw [hkd]
    intro hzero
    exact (halike.field (fun c => c.derivative) fun _ => rfl).trans (hd hzero)

/-- Any number of them leave the derivative that many factors smaller. -/
theorem run_zeroLength {measured ff : ℚ} (h : Settled c x measured ff) (n : ℕ) :
    Alike (run after c (List.replicate n (zeroLength x)))
      { c with derivative := c.derivative * decay c.toServo ^ n } := by
  induction n generalizing c with
  | zero =>
    rw [pow_zero, mul_one]
    rfl
  | succ n ih =>
    have hone := step_zeroLength h
    have hidle : c.kd = 0 → c.derivative * decay c.toServo = 0 := by
      intro hkd
      rw [h.idle hkd, zero_mul]
    have hrest := ih (h.of_alike hidle hone)
    have hderivative : (after c (zeroLength x)).derivative = c.derivative * decay c.toServo :=
      hone.field (fun c => c.derivative) fun _ => rfl
    have hdecay : decay (after c (zeroLength x)).toServo = decay c.toServo :=
      hone.field (fun c => decay c.toServo) fun _ => rfl
    rw [List.replicate_succ, run_cons]
    refine hrest.trans ?_
    rw [hderivative, hdecay, mul_assoc, ← pow_succ']
    exact congrArg (fun q : Controller => { q with derivative := c.derivative * decay c.toServo ^ (n + 1) }) hone

/-! ## Runs -/

/-- What the constructor settles and every step keeps: without a gain there is no derivative. -/
structure Ready (c c' : Controller) : Prop where
  fixed : Fixed c.toServo c'.toServo
  feedforward : c'.feedforward = c.feedforward
  idle : c.kd = 0 → c'.derivative = 0

theorem differentiate_derivative {s : Servo} (hkd : s.kd = 0) (measured h : ℚ) :
    (differentiate s measured h).derivative = s.derivative := by
  unfold differentiate
  rw [if_pos hkd]

theorem close_rest (s : Servo) (ff error h : ℚ) : (close s ff error h).1.derivative = s.derivative ∧
    (close s ff error h).1.setpoint = s.setpoint ∧
      (close s ff error h).1.previousMeasured = s.previousMeasured := by
  unfold close integrateBeside
  dsimp only
  split <;> exact ⟨rfl, rfl, rfl⟩

theorem Ready.step {c₀ : Controller} (h : Ready c₀ c) (x : Sample) : Ready c₀ (after c x) := by
  refine ⟨h.fixed.trans (step_fixed c x).1, (step_fixed c x).2.trans h.feedforward, fun hkd => ?_⟩
  have hd : ∀ measured, (sampled c x measured).derivative = 0 := by
    intro measured
    have hsame := differentiate_derivative (s := { c.toServo with setpoint := x.setpoint })
      (h.fixed.kd.trans hkd) measured (span c.toServo x.dt)
    exact hsame.trans (h.idle hkd)
  unfold after Controller.step
  split
  · next measured _ =>
    dsimp only
    split
    · exact hd measured
    · exact (close_rest _ _ _ _).1.trans (hd measured)
  · exact h.idle hkd

theorem Ready.settled {c₀ : Controller} (h : Ready c₀ c) (hgain : c₀.feedforward = .gain g)
    (hbounds : Ordered c₀.min c₀.max) {measured : ℚ} (hmeasured : x.measured = .finite measured) :
    ∃ ff, Settled (after c x) x measured ff := by
  have hff := openLoop_gain (h.feedforward.trans hgain) x
  have hff' := openLoop_gain (((h.step x).feedforward).trans hgain) x
  generalize (if g ≠ 0 then g * x.disturbance else 0 : ℚ) = ff at hff hff'
  have hstep : after c x = { c with
      toServo := (close (sampled c x measured) ff (x.setpoint - measured) (span c.toServo x.dt)).1 } := by
    unfold after Controller.step
    rw [hmeasured, hff]
  have hrest := close_rest (sampled c x measured) ff (x.setpoint - measured) (span c.toServo x.dt)
  have hsampled := h.fixed.trans (sampled_fixed c x measured)
  refine ⟨ff, hmeasured, hff', ?_, ?_, ?_, ?_⟩
  · rw [hstep]
    refine hrest.2.1.trans ?_
    unfold sampled differentiate
    split <;> rfl
  · rw [hstep]
    exact hrest.2.2
  · intro hki
    rw [(h.step x).fixed.ki] at hki
    rw [hstep]
    apply integrateBeside_kept
    · rw [hsampled.ki]
      exact hki
    · rw [hsampled.min, hsampled.max]
      exact hbounds
  · intro hkd
    rw [(h.step x).fixed.kd] at hkd
    exact (h.step x).idle hkd

/-- A step that throws leaves nothing for its repetition to change. -/
theorem after_thrown (hmeasured : ∀ q, x.measured ≠ .finite q) (c : Controller) (n : ℕ) :
    run after (after c x) (List.replicate n (zeroLength x)) = after c x := by
  have hthrown : ∀ (y : Sample) (c : Controller), y.measured = x.measured →
      after c y = { c with setpoint := y.setpoint } := by
    intro y c hy
    unfold after Controller.step
    split
    · next measured hfinite => exact absurd (hy.symm.trans hfinite) (hmeasured measured)
    · rfl
  induction n with
  | zero => rfl
  | succ n ih =>
    rw [List.replicate_succ, run_cons, hthrown (zeroLength x) _ rfl, hthrown x c rfl]
    rw [hthrown x c rfl] at ih
    exact ih

end

theorem new_ready {o : Options} {min max : Option ℚ} {feedforward : Given} {feedforwardGain : Option Number}
    {c : Controller} (h : new o min max feedforward feedforwardGain = .ok c) :
    Ready c c ∧ Ordered c.min c.max ∧ 0 ≤ c.derivativeFilter ∧ c.derivativeFilter < 1 := by
  have hservo := new_spec h
  obtain ⟨hmin, hmax, hordered⟩ := PowerServo.new_spec hservo
  have hfilter : c.derivative = 0 ∧
      c.derivativeFilter = clamp (finite o.derivativeFilter 0) (some 0) (some (999 / 1000)) := by
    unfold PowerServo.new at hservo
    dsimp only at hservo
    split at hservo
    · split at hservo
      · cases hservo
      · rw [← Except.ok.inj hservo]
        exact ⟨rfl, rfl⟩
    · rw [← Except.ok.inj hservo]
      exact ⟨rfl, rfl⟩
  have hrange : Ordered (some (0 : ℚ)) (some (999 / 1000)) := by
    rintro l ⟨⟩ u ⟨⟩
    norm_num
  have hwithin := clamp_within hrange (finite o.derivativeFilter 0)
  rw [← hfilter.2] at hwithin
  refine ⟨⟨⟨rfl, rfl, rfl, rfl, rfl, rfl⟩, rfl, fun _ => hfilter.1⟩, ?_, hwithin.1 0 rfl, ?_⟩
  · rw [hmin, hmax]
    exact hordered
  · exact lt_of_le_of_lt (hwithin.2 _ rfl) (by norm_num)

theorem decay_range {s : Servo} (h0 : 0 ≤ s.derivativeFilter) (h1 : s.derivativeFilter < 1) :
    0 ≤ decay s ∧ decay s < 1 := by
  unfold decay
  split
  · exact ⟨le_rfl, one_pos⟩
  · next hne => exact ⟨by linarith, sub_lt_self 1 (lt_of_le_of_ne h0 (Ne.symm hne))⟩

/-- In every run of a controller with a feedforward gain or none, steps over no time that repeat
the last step change neither the integral nor the derivative, nor what any later step answers,
exactly where there are none, the last step threw, or the derivative it left is 0. -/
theorem inert_iff {o : Options} {min max : Option ℚ} {feedforward : Given} {feedforwardGain : Option Number}
    {c : Controller} {g : ℚ} (hnew : new o min max feedforward feedforwardGain = .ok c)
    (hgain : c.feedforward = .gain g) (before : List Sample) (x : Sample) (n : ℕ) :
    let s := run after c (before ++ [x])
    let s' := run after s (List.replicate n (zeroLength x))
    (s'.integral = s.integral ∧ s'.derivative = s.derivative ∧
        ∀ later, answers step s' later = answers step s later) ↔
      n = 0 ∨ (∀ q, x.measured ≠ .finite q) ∨ s.derivative = 0 := by
  intro s s'
  obtain ⟨hready, hbounds, h0, h1⟩ := new_ready hnew
  have hbefore : Ready c (run after c before) :=
    (always_of_step (P := Ready c) (fun _ x h => h.step x) hready before).last
  have hs : s = after (run after c before) x := by
    show run after c (before ++ [x]) = _
    rw [run_append]
    rfl
  have hgain' : s.feedforward = .gain g := by
    rw [hs]
    exact (hbefore.step x).feedforward.trans hgain
  have hdecay : 0 ≤ decay s.toServo ∧ decay s.toServo < 1 := by
    rw [hs]
    apply decay_range
    · rw [(hbefore.step x).fixed.derivativeFilter]
      exact h0
    · rw [(hbefore.step x).fixed.derivativeFilter]
      exact h1
  by_cases hfinite : ∃ measured, x.measured = .finite measured
  · obtain ⟨measured, hmeasured⟩ := hfinite
    obtain ⟨ff, hsettled⟩ := hbefore.settled hgain hbounds hmeasured
    rw [← hs] at hsettled
    have halike : Alike s' { s with derivative := s.derivative * decay s.toServo ^ n } :=
      run_zeroLength hsettled n
    have hderivative : s'.derivative = s.derivative * decay s.toServo ^ n :=
      halike.field (fun c => c.derivative) fun _ => rfl
    have hintegral : s'.integral = s.integral := halike.field (fun c => c.integral) fun _ => rfl
    constructor
    · rintro ⟨-, hsame, -⟩
      by_contra hno
      rw [not_or, not_or] at hno
      obtain ⟨hn, -, hd⟩ := hno
      have hless : decay s.toServo ^ n < 1 := pow_lt_one₀ hdecay.1 hdecay.2 hn
      rw [hderivative] at hsame
      exact hless.ne (mul_left_cancel₀ hd (hsame.trans (mul_one _).symm))
    · intro hcase
      have hsame : s.derivative * decay s.toServo ^ n = s.derivative := by
        rcases hcase with rfl | hthrows | hd
        · rw [pow_zero, mul_one]
        · exact absurd hmeasured (hthrows measured)
        · rw [hd, zero_mul]
      rw [hsame] at hderivative halike
      refine ⟨hintegral, hderivative, fun later => ?_⟩
      exact (Alike.answers_eq halike.symm hgain' later).symm
  · have hthrows : ∀ q, x.measured ≠ .finite q := fun q hq => hfinite ⟨q, hq⟩
    have hsame : s' = s := by
      show run after s _ = s
      rw [hs]
      exact after_thrown hthrows _ n
    rw [hsame]
    exact iff_of_true ⟨rfl, rfl, fun _ => rfl⟩ (Or.inr (Or.inl hthrows))

/-- A derivative of -1/2 that a step over no time halves, and a later output that tells. -/
theorem inert_decays :
    let o : Options := { kd := some (.finite 1), derivativeFilter := some (.finite (1 / 2)) }
    let c : Controller :=
      { setpoint := 0, kp := 0, ki := 0, kd := 1, derivativeFilter := 1 / 2, min := none, max := none
        defaultDt := 1, feedforward := .gain 0 }
    let x : Sample := { setpoint := 0, measured := .finite 1 }
    let later : Sample := { setpoint := 0, measured := .finite 2 }
    let s := run after c [{ setpoint := 0, measured := .finite 0 }, x]
    let s' := after s (zeroLength x)
    new o none none .nothing none = .ok c ∧ s.derivative = -1 / 2 ∧ s'.derivative = -1 / 4 ∧
      (s.step later).2 = .ok (-3 / 4) ∧ (s'.step later).2 = .ok (-5 / 8) := by
  decide +kernel

/-- Without a derivative. -/
theorem inert_iff_proportional :
    let o : Options := { kp := some (.finite 1), ki := some (.finite 1) }
    let c : Controller :=
      { setpoint := 0, kp := 1, ki := 1, kd := 0, derivativeFilter := 0, min := none, max := none
        defaultDt := 1, feedforward := .gain 0 }
    let x : Sample := { setpoint := 0, measured := .finite 1 }
    let s := run after c ([] ++ [x])
    let s' := run after s (List.replicate 2 (zeroLength x))
    new o none none .nothing none = .ok c ∧ s'.integral = s.integral ∧
      ∀ later, answers step s' later = answers step s later := by
  intro o c x s s'
  have hnew : new o none none .nothing none = .ok c := by decide +kernel
  have hd : s.derivative = 0 := by decide +kernel
  have hall := (inert_iff hnew rfl [] x 2).mpr (Or.inr (Or.inr hd))
  exact ⟨hnew, hall.1, hall.2.2⟩

end PerformanceHelpers.PowerServo.Controller
