import PerformanceHelpers.PowerServo
import PerformanceHelpers.Run

/- `PowerServo` with its feedforward term (`src/helpers/powerServo.js`).

   A step is handed all the caller has a say in: the setpoint in force, the measurement, the time
   it stands for, the disturbance, and what the feedforward function answers, where there is one.
   That function may answer anything at any step; where it answers no finite number the step
   throws, with its measurement already remembered.

   What is proved:
     1. `step_no_feedforward` — without the term a step is the step of `PowerServo.step`.
     2. `integrateBeside_kept` — what the integral contributes stays within what the other two
        terms leave of the bounds, whatever the sign of its gain.
     3. `antiwindup` — so in every run the output is within the bounds, and it leaves a bound at
        the first step whose other terms move away from it, however long it rested there. -/
namespace PerformanceHelpers.PowerServo

/-- What `feedforward` and `feedforwardGain` come to: the function that is called, or the gain. A
number that is given as `feedforward` is kept, and never read. -/
inductive Feedforward where
  | function
  | gain (g : ℚ)
  deriving DecidableEq

structure Controller extends Servo where
  feedforward : Feedforward
  deriving DecidableEq

/-- What is given as `feedforward`, by its type. -/
inductive Given where
  | nothing
  | function
  | number
  | other (typeof : String)

/-- What a step is handed. -/
structure Sample where
  setpoint : ℚ
  measured : Number
  dt : Option Number := none
  disturbance : ℚ := 0
  /-- What the feedforward function answers. -/
  contribution : Number := .finite 0

namespace Controller

/-- The constructor, for the bounds `[min, max]`. -/
def new (o : Options) (min max : Option ℚ) (feedforward : Given) (feedforwardGain : Option Number) :
    Except String Controller :=
  match PowerServo.new o min max with
  | .error e => .error e
  | .ok servo =>
    match feedforward with
    | .other typeof => .error s!"PowerServo: feedforward must be a function or a number, got {typeof}"
    | .function => .ok { servo with feedforward := .function }
    | .nothing | .number => .ok { servo with feedforward := .gain (finite feedforwardGain 0) }

def openLoop (c : Controller) (x : Sample) : Except String ℚ :=
  match c.feedforward with
  | .function =>
    match x.contribution with
    | .finite q => .ok q
    | n => .error s!"PowerServo: feedforward returned {n}, expected a finite number"
  | .gain g => .ok (if g ≠ 0 then g * x.disturbance else 0)

/-- The integral part of `step`: the contribution of the integral is kept within what the other
two terms leave of the bounds. -/
def integrateBeside (s : Servo) (ff error h : ℚ) : Servo :=
  if s.ki = 0 then s
  else
    let integral := s.integral + error * h
    let contribution := s.ki * integral
    let lo := s.min.map fun m => m - ff - s.kp * error
    let hi := s.max.map fun m => m - ff - s.kp * error
    { s with integral :=
        if lo.any fun l => decide (contribution < l) then lo.getD 0 / s.ki
        else if hi.any fun h => decide (h < contribution) then hi.getD 0 / s.ki
        else integral }

/-- What a step leaves once its open-loop term is known, and what it returns. -/
def close (s : Servo) (ff error h : ℚ) : Servo × ℚ :=
  let feedback := s.kp * error + s.ki * s.integral + s.kd * s.derivative
  let output := clamp (ff + feedback) s.min s.max
  let s := integrateBeside s ff error h
  ({ s with
    output, error
    saturated := s.min == some output || s.max == some output }, output)

def sampled (c : Controller) (x : Sample) (measured : ℚ) : Servo :=
  { differentiate { c.toServo with setpoint := x.setpoint } measured (span c.toServo x.dt) with
    previousMeasured := some measured }

/-- `step(measured, dt, disturbance)`. -/
def step (c : Controller) (x : Sample) : Controller × Except String ℚ :=
  match x.measured with
  | .finite measured =>
    let s := sampled c x measured
    match openLoop c x with
    | .error e => ({ c with toServo := s }, .error e)
    | .ok ff =>
      let r := close s ff (x.setpoint - measured) (span c.toServo x.dt)
      ({ c with toServo := r.1 }, .ok r.2)
  | measured =>
    ({ c with setpoint := x.setpoint }, .error s!"PowerServo: measured must be a finite number, got {measured}")

/-- The open-loop term and the error of a step that does not throw. -/
def terms (c : Controller) (x : Sample) : Option (ℚ × ℚ) :=
  match x.measured, openLoop c x with
  | .finite measured, .ok ff => some (ff, x.setpoint - measured)
  | _, _ => none

end Controller

/-- A loop: the controller, and the terms of the last step that did not throw. -/
structure Loop where
  controller : Controller
  last : Option (ℚ × ℚ)

def Loop.start (c : Controller) : Loop := ⟨c, none⟩

def Loop.step (l : Loop) (x : Sample) : Loop :=
  ⟨(l.controller.step x).1, l.controller.terms x <|> l.last⟩

namespace Controller

/-! ## The parts of a step -/

section
variable {s : Servo} {c : Controller} {x : Sample} {ff error h : ℚ}

theorem integrateBeside_zero (s : Servo) (error h : ℚ) : integrateBeside s 0 error h = integrate s error h := by
  unfold integrateBeside integrate
  simp only [sub_zero]

theorem step_no_feedforward (hgain : c.feedforward = .gain 0) (hset : x.setpoint = c.setpoint) :
    (PowerServo.step c.toServo x.measured x.dt).toOption =
      (c.step x).2.toOption.map fun output => ((c.step x).1.toServo, output) := by
  unfold PowerServo.step step
  have hff : openLoop c x = .ok 0 := by
    unfold openLoop
    rw [hgain]
    rfl
  rw [hff]
  cases hmeasured : x.measured with
  | finite measured =>
    simp only [close, sampled, hset, integrateBeside_zero, zero_add]
    rfl
  | _ => rfl

structure Fixed (s s' : Servo) : Prop where
  kp : s'.kp = s.kp
  ki : s'.ki = s.ki
  kd : s'.kd = s.kd
  derivativeFilter : s'.derivativeFilter = s.derivativeFilter
  min : s'.min = s.min
  max : s'.max = s.max

theorem Fixed.trans {s s' s'' : Servo} (h : Fixed s s') (h' : Fixed s' s'') : Fixed s s'' where
  kp := h'.kp.trans h.kp
  ki := h'.ki.trans h.ki
  kd := h'.kd.trans h.kd
  derivativeFilter := h'.derivativeFilter.trans h.derivativeFilter
  min := h'.min.trans h.min
  max := h'.max.trans h.max

theorem sampled_fixed (c : Controller) (x : Sample) (measured : ℚ) : Fixed c.toServo (sampled c x measured) := by
  unfold sampled differentiate
  split <;> exact ⟨rfl, rfl, rfl, rfl, rfl, rfl⟩

/-- The integral is not differentiated. -/
theorem sampled_integral (c : Controller) (x : Sample) (measured : ℚ) :
    (sampled c x measured).integral = c.integral := by
  unfold sampled differentiate
  split <;> rfl

theorem close_fixed (s : Servo) (ff error h : ℚ) : Fixed s (close s ff error h).1 := by
  unfold close integrateBeside
  dsimp only
  split <;> exact ⟨rfl, rfl, rfl, rfl, rfl, rfl⟩

theorem step_fixed (c : Controller) (x : Sample) :
    Fixed c.toServo (c.step x).1.toServo ∧ (c.step x).1.feedforward = c.feedforward := by
  unfold step
  split
  · next measured _ =>
    have hsampled := sampled_fixed c x measured
    dsimp only
    split
    · exact ⟨hsampled, rfl⟩
    · exact ⟨hsampled.trans (close_fixed _ _ _ _), rfl⟩
  · exact ⟨⟨rfl, rfl, rfl, rfl, rfl, rfl⟩, rfl⟩

/-- A step that does not throw closes on its terms. -/
theorem step_of_terms {p : ℚ × ℚ} (h : p ∈ c.terms x) : ∃ measured h, x.measured = .finite measured ∧
    c.step x = ({ c with toServo := (close (sampled c x measured) p.1 p.2 h).1 },
      .ok (close (sampled c x measured) p.1 p.2 h).2) := by
  unfold terms at h
  split at h
  · next measured ff hmeasured hff =>
    obtain rfl := Option.some.inj h
    refine ⟨measured, span c.toServo x.dt, hmeasured, ?_⟩
    unfold step
    rw [hmeasured, hff]
  · cases h

/-- A step without terms throws, and leaves the integral. -/
theorem step_of_no_terms (h : c.terms x = none) :
    (∃ e, (c.step x).2 = .error e) ∧ (c.step x).1.integral = c.integral := by
  unfold terms at h
  unfold step
  split
  · next measured hmeasured =>
    rw [hmeasured] at h
    dsimp only at h ⊢
    split
    · next e he => exact ⟨⟨e, rfl⟩, sampled_integral c x measured⟩
    · next ff hff =>
      rw [hff] at h
      cases h
  · exact ⟨⟨_, rfl⟩, rfl⟩

/-! ## The integral -/

/-- What the integral contributes lies within what the other terms leave of the bounds. -/
def Kept (s : Servo) (ff error : ℚ) : Prop :=
  (∀ l ∈ s.min, l - ff - s.kp * error ≤ s.ki * s.integral) ∧
    ∀ u ∈ s.max, s.ki * s.integral ≤ u - ff - s.kp * error

/-- The clamp is on the contribution, so the sign of the gain does not matter. -/
theorem integrateBeside_kept (hki : s.ki ≠ 0) (hbounds : Ordered s.min s.max) (ff error h : ℚ) :
    Kept (integrateBeside s ff error h) ff error := by
  have hcancel : ∀ q : ℚ, s.ki * (q / s.ki) = q := fun q => mul_div_cancel₀ q hki
  unfold integrateBeside
  rw [if_neg hki]
  dsimp only
  generalize s.integral + error * h = integral
  cases hmin : s.min with
  | none =>
    refine ⟨fun l hl => absurd hl (Option.not_mem_none l), ?_⟩
    cases hmax : s.max with
    | none => exact fun u hu => absurd hu (Option.not_mem_none u)
    | some hi =>
      intro u hu
      obtain rfl := Option.some.inj hu
      simp only [Option.map_none, Option.any_none, Bool.false_eq_true, if_false, Option.map_some,
        Option.any_some, decide_eq_true_eq, Option.getD_some]
      split
      · rw [hcancel]
      · exact not_lt.mp ‹_›
  | some lo =>
    simp only [Option.map_some, Option.any_some, decide_eq_true_eq, Option.getD_some]
    cases hmax : s.max with
    | none =>
      refine ⟨fun l hl => ?_, fun u hu => absurd hu (Option.not_mem_none u)⟩
      obtain rfl := Option.some.inj hl
      simp only [Option.map_none, Option.any_none, Bool.false_eq_true, if_false]
      split
      · rw [hcancel]
      · exact not_lt.mp ‹_›
    | some hi =>
      have hle : lo ≤ hi := hbounds lo hmin hi hmax
      simp only [Option.map_some, Option.any_some, decide_eq_true_eq, Option.getD_some]
      refine ⟨fun l hl => ?_, fun u hu => ?_⟩
      · obtain rfl := Option.some.inj hl
        split
        · rw [hcancel]
        · split
          · rw [hcancel]
            linarith
          · exact not_lt.mp ‹_›
      · obtain rfl := Option.some.inj hu
        split
        · rw [hcancel]
          linarith
        · split
          · rw [hcancel]
          · exact not_lt.mp ‹_›

/-! ## The output -/

theorem clamp_lt {lo hi : Option ℚ} (hbounds : ∀ l ∈ lo, ∀ u ∈ hi, l < u) {value m : ℚ} (hm : m ∈ hi)
    (hvalue : value < m) : clamp value lo hi < m := by
  obtain rfl := Option.mem_def.mp hm
  unfold clamp
  split
  · next hlow =>
    rw [Option.any_eq_true] at hlow
    obtain ⟨l, hl, -⟩ := hlow
    rw [hl]
    exact hbounds l hl m rfl
  · split
    · next hhigh =>
      rw [Option.any_some, decide_eq_true_eq] at hhigh
      exact absurd hvalue hhigh.le.not_gt
    · exact hvalue

theorem lt_clamp {lo hi : Option ℚ} (hbounds : ∀ l ∈ lo, ∀ u ∈ hi, l < u) {value m : ℚ} (hm : m ∈ lo)
    (hvalue : m < value) : m < clamp value lo hi := by
  obtain rfl := Option.mem_def.mp hm
  unfold clamp
  split
  · next hlow =>
    rw [Option.any_some, decide_eq_true_eq] at hlow
    exact absurd hvalue hlow.le.not_gt
  · split
    · next hhigh =>
      rw [Option.any_eq_true] at hhigh
      obtain ⟨u, hu, -⟩ := hhigh
      rw [hu]
      exact hbounds m rfl u hu
    · exact hvalue

/-- With no derivative, what a step returns is clamped from the terms and the integral. -/
theorem close_output (hkd : s.kd = 0) (ff error h : ℚ) :
    (close s ff error h).2 = clamp (ff + s.kp * error + s.ki * s.integral) s.min s.max := by
  unfold close
  dsimp only
  rw [hkd]
  congr 1
  ring

theorem Ordered.of_lt {lo hi : Option ℚ} (h : ∀ l ∈ lo, ∀ u ∈ hi, l < u) : Ordered lo hi :=
  fun l hl u hu => (h l hl u hu).le

end

/-! ## Runs -/

/-- What every step keeps: what the constructor settled, and the integral beside the terms of the
last step. -/
structure Unwound (c : Controller) (l : Loop) : Prop where
  fixed : Fixed c.toServo l.controller.toServo
  kept : ∀ p ∈ l.last, Kept l.controller.toServo p.1 p.2

section
variable {c : Controller} {l : Loop}

theorem Unwound.step (h : Unwound c l) (hki : c.ki ≠ 0) (hbounds : Ordered c.min c.max) (x : Sample) :
    Unwound c (l.step x) := by
  refine ⟨h.fixed.trans (step_fixed l.controller x).1, fun p hp => ?_⟩
  unfold Loop.step at hp ⊢
  dsimp only at hp ⊢
  cases hterms : l.controller.terms x with
  | none =>
    -- the step threw, and the integral is as it was
    have hp : p ∈ l.last := by rwa [hterms] at hp
    have hfixed := (step_fixed l.controller x).1
    have hkept := h.kept p hp
    unfold Kept at hkept ⊢
    rw [hfixed.min, hfixed.max, hfixed.kp, hfixed.ki, (step_of_no_terms hterms).2]
    exact hkept
  | some p' =>
    rw [hterms] at hp
    obtain rfl : p' = p := Option.some.inj hp
    obtain ⟨measured, dt, -, hstep⟩ := step_of_terms hterms
    have hsampled := h.fixed.trans (sampled_fixed l.controller x measured)
    rw [hstep]
    apply integrateBeside_kept
    · rw [hsampled.ki]
      exact hki
    · rw [hsampled.min, hsampled.max]
      exact hbounds

/-- A step that does not throw returns what is within the bounds, and off a bound as soon as the
other terms move away from it. -/
theorem Unwound.output (h : Unwound c l) (hbounds : ∀ lo ∈ c.min, ∀ hi ∈ c.max, lo < hi) {x : Sample}
    {output : ℚ} (hok : (l.controller.step x).2 = .ok output) :
    Within c.min c.max output ∧ (c.kd = 0 → ∀ p ∈ l.last, ∀ p' ∈ l.controller.terms x,
      (p'.1 + c.kp * p'.2 < p.1 + c.kp * p.2 → ∀ hi ∈ c.max, output < hi) ∧
      (p.1 + c.kp * p.2 < p'.1 + c.kp * p'.2 → ∀ lo ∈ c.min, lo < output)) := by
  obtain ⟨p', hp'⟩ : ∃ p', p' ∈ l.controller.terms x := by
    apply Option.ne_none_iff_exists'.mp
    intro hnone
    obtain ⟨⟨e, he⟩, -⟩ := step_of_no_terms hnone
    rw [he] at hok
    cases hok
  obtain ⟨measured, dt, -, hstep⟩ := step_of_terms hp'
  have hfixed := h.fixed.trans (sampled_fixed l.controller x measured)
  have hintegral := sampled_integral l.controller x measured
  have houtput : (close (sampled l.controller x measured) p'.1 p'.2 dt).2 = output := by
    rw [hstep] at hok
    exact Except.ok.inj hok
  constructor
  · rw [← houtput, ← hfixed.min, ← hfixed.max]
    apply clamp_within
    rw [hfixed.min, hfixed.max]
    exact Ordered.of_lt hbounds
  · intro hkd p hp p'' hp''
    obtain rfl := Option.some.inj (hp'.symm.trans hp'')
    obtain ⟨hlow, hhigh⟩ := h.kept p hp
    rw [h.fixed.min, h.fixed.kp, h.fixed.ki] at hlow
    rw [h.fixed.max, h.fixed.kp, h.fixed.ki] at hhigh
    rw [close_output (hfixed.kd.trans hkd), hfixed.min, hfixed.max, hfixed.kp, hfixed.ki, hintegral] at houtput
    rw [← houtput]
    constructor
    · intro hless hi hhi
      apply clamp_lt hbounds hhi
      have := hhigh hi hhi
      linarith
    · intro hmore lo hlo
      apply lt_clamp hbounds hlo
      have := hlow lo hlo
      linarith

end

theorem new_spec {o : Options} {min max : Option ℚ} {feedforward : Given} {feedforwardGain : Option Number}
    {c : Controller} (h : new o min max feedforward feedforwardGain = .ok c) :
    PowerServo.new o min max = .ok c.toServo := by
  unfold new at h
  split at h
  · cases h
  · next servo hservo =>
    rw [hservo]
    split at h
    · cases h
    · rw [← Except.ok.inj h]
    · rw [← Except.ok.inj h]
    · rw [← Except.ok.inj h]

/-- In every run of a controller with an integral gain, after every step the integral lies within
what the feedforward and the proportional term leave of the bounds. Every output lies within the
bounds; and with no derivative it is strictly off a bound at each step whose other terms have
moved away from it since the last. -/
theorem antiwindup {o : Options} {min max : Option ℚ} {feedforward : Given} {feedforwardGain : Option Number}
    {c : Controller} (hnew : new o min max feedforward feedforwardGain = .ok c) (hki : c.ki ≠ 0)
    (hbounds : ∀ lo ∈ min, ∀ hi ∈ max, lo < hi) (xs : List Sample) :
    let l := run Loop.step (Loop.start c) xs
    (∀ p ∈ l.last, Kept l.controller.toServo p.1 p.2) ∧
      ∀ x output, (l.controller.step x).2 = .ok output →
        Within min max output ∧ (c.kd = 0 → ∀ p ∈ l.last, ∀ p' ∈ l.controller.terms x,
          (p'.1 + c.kp * p'.2 < p.1 + c.kp * p.2 → ∀ hi ∈ max, output < hi) ∧
          (p.1 + c.kp * p.2 < p'.1 + c.kp * p'.2 → ∀ lo ∈ min, lo < output)) := by
  obtain ⟨hmin, hmax, hordered⟩ := PowerServo.new_spec (new_spec hnew)
  obtain rfl := hmin
  obtain rfl := hmax
  have hstart : Unwound c (Loop.start c) :=
    ⟨⟨rfl, rfl, rfl, rfl, rfl, rfl⟩, fun p hp => absurd hp (Option.not_mem_none p)⟩
  have hrun := (always_of_step (P := Unwound c) (fun _ x h => h.step hki hordered x) hstart xs).last
  exact ⟨hrun.kept, fun x output hok => hrun.output hbounds hok⟩

/-- Three steps at the upper bound, and one whose error is smaller. -/
theorem antiwindup_release :
    let o : Options := { kp := some (.finite (1 / 2)), ki := some (.finite 2) }
    let c : Controller :=
      { setpoint := 0, kp := 1 / 2, ki := 2, kd := 0, derivativeFilter := 0, min := some 0, max := some 8
        defaultDt := 1, feedforward := .gain 0 }
    let l := run Loop.step (Loop.start c) (List.replicate 3 { setpoint := 100, measured := .finite 0 })
    new o (some 0) (some 8) .nothing none = .ok c ∧ l.controller.output = 8 ∧
      ∀ output, (l.controller.step { setpoint := 100, measured := .finite 1 }).2 = .ok output → output < 8 := by
  intro o c l
  have hnew : new o (some 0) (some 8) .nothing none = .ok c := by decide +kernel
  have hbounds : ∀ lo ∈ some (0 : ℚ), ∀ hi ∈ some (8 : ℚ), lo < hi := by decide +kernel
  have hlast : (0, 100) ∈ l.last := by decide +kernel
  have hterms : (0, 99) ∈ l.controller.terms { setpoint := 100, measured := .finite 1 } := by decide +kernel
  have hless : (0 : ℚ) + c.kp * 99 < 0 + c.kp * 100 := by decide +kernel
  obtain ⟨-, hall⟩ := antiwindup hnew (by decide +kernel) hbounds
    (List.replicate 3 { setpoint := 100, measured := .finite 0 })
  refine ⟨hnew, by decide +kernel, fun output hok => ?_⟩
  exact (((hall _ output hok).2 rfl) _ hlast _ hterms).1 hless 8 rfl

end Controller

end PerformanceHelpers.PowerServo
