import PerformanceHelpers.Number
import PerformanceHelpers.Options

/- `PowerServo` (`src/helpers/powerServo.js`), over exact rationals and without a
   feedforward term, which `PowerFlowControl` never hands it: a controller whose output stays
   within its bounds, whatever the gains and the measurements. A bound that is infinite is
   `none`. -/
namespace PerformanceHelpers.PowerServo

structure Servo where
  setpoint : ℚ
  kp : ℚ
  ki : ℚ
  kd : ℚ
  /-- In `[0, 0.999]`. -/
  derivativeFilter : ℚ
  min : Option ℚ
  max : Option ℚ
  defaultDt : ℚ
  integral : ℚ := 0
  previousMeasured : Option ℚ := none
  derivative : ℚ := 0
  output : ℚ := 0
  error : ℚ := 0
  saturated : Bool := false
  deriving DecidableEq

/-- The options a `PowerFlowControl` forwards. -/
structure Options where
  setpoint : Option Number := none
  kp : Option Number := none
  ki : Option Number := none
  kd : Option Number := none
  derivativeFilter : Option Number := none
  dt : Option Number := none

/-- `finite`: the fallback stands in for what is no finite number. -/
def finite (value : Option Number) (fallback : ℚ) : ℚ :=
  match value with
  | some (.finite q) => q
  | _ => fallback

def clamp (value : ℚ) (lo hi : Option ℚ) : ℚ :=
  if lo.any fun l => decide (value < l) then lo.getD value
  else if hi.any fun h => decide (h < value) then hi.getD value
  else value

/-- The constructor, for the bounds `[min, max]`. -/
def new (o : Options) (min max : Option ℚ) : Except String Servo :=
  let servo : Servo :=
    { setpoint := finite o.setpoint 0
      kp := finite o.kp 0, ki := finite o.ki 0, kd := finite o.kd 0
      derivativeFilter := clamp (finite o.derivativeFilter 0) (some 0) (some (999 / 1000))
      min, max
      defaultDt := Max.max 0 (finite o.dt 1) }
  match min, max with
  | some lo, some hi =>
    if hi < lo then .error s!"PowerServo: max ({hi}) must be >= min ({lo})" else .ok servo
  | _, _ => .ok servo

/-- The derivative part of `step`, over a span of `h`. -/
def differentiate (s : Servo) (measured h : ℚ) : Servo :=
  if s.kd = 0 then s
  else
    let rawDerivative := match s.previousMeasured with
      | some previous => if 0 < h then (previous - measured) / h else 0
      | none => 0
    { s with
      derivative := if s.derivativeFilter = 0 then rawDerivative
        else s.derivative + s.derivativeFilter * (rawDerivative - s.derivative) }

/-- The integral part of `step`: the contribution of the integral is kept within what the
proportional term leaves of the bounds. -/
def integrate (s : Servo) (error h : ℚ) : Servo :=
  if s.ki = 0 then s
  else
    let integral := s.integral + error * h
    let contribution := s.ki * integral
    let lo := s.min.map fun m => m - s.kp * error
    let hi := s.max.map fun m => m - s.kp * error
    { s with integral :=
        if lo.any fun l => decide (contribution < l) then lo.getD 0 / s.ki
        else if hi.any fun h => decide (h < contribution) then hi.getD 0 / s.ki
        else integral }

def span (s : Servo) (dt : Option Number) : ℚ :=
  dt.elim s.defaultDt fun dt => Max.max 0 (finite (some dt) 0)

/-- `step(measured, dt)`. -/
def step (s : Servo) (measured : Number) (dt : Option Number) : Except String (Servo × ℚ) :=
  match measured with
  | .finite measured =>
    let h := span s dt
    let error := s.setpoint - measured
    let s := { differentiate s measured h with previousMeasured := some measured }
    let feedback := s.kp * error + s.ki * s.integral + s.kd * s.derivative
    let output := clamp feedback s.min s.max
    let s := integrate s error h
    .ok ({ s with
      output, error
      saturated := s.min == some output || s.max == some output }, output)
  | measured => .error s!"PowerServo: measured must be a finite number, got {measured}"

/-- `reset`, and `dispose`. -/
def reset (s : Servo) : Servo :=
  { s with
    integral := 0, previousMeasured := none, derivative := 0, output := 0, error := 0
    saturated := false }

/-! ## The bounds -/

def Within (lo hi : Option ℚ) (q : ℚ) : Prop := (∀ l ∈ lo, l ≤ q) ∧ ∀ h ∈ hi, q ≤ h

def Ordered (lo hi : Option ℚ) : Prop := ∀ l ∈ lo, ∀ h ∈ hi, l ≤ h

theorem clamp_within {lo hi : Option ℚ} (h : Ordered lo hi) (value : ℚ) :
    Within lo hi (clamp value lo hi) := by
  unfold clamp
  cases lo with
  | none =>
    refine ⟨fun l hl => (Option.not_mem_none l hl).elim, fun u hu => ?_⟩
    obtain rfl := Option.mem_def.mp hu
    simp only [Option.any_none, Bool.false_eq_true, if_false, Option.any_some, decide_eq_true_eq,
      Option.getD_some]
    split
    · exact le_rfl
    · exact not_lt.mp ‹_›
  | some l =>
    simp only [Option.any_some, decide_eq_true_eq, Option.getD_some]
    split
    · next hlt =>
      refine ⟨fun l' hl' => ?_, fun u hu => h l rfl u hu⟩
      rw [← Option.some.inj hl']
    · next hge =>
      cases hi with
      | none =>
        refine ⟨fun l' hl' => ?_, fun u hu => (Option.not_mem_none u hu).elim⟩
        rw [← Option.some.inj hl']
        exact not_lt.mp hge
      | some u =>
        have hlu : l ≤ u := h l rfl u rfl
        simp only [Option.any_some, decide_eq_true_eq, Option.getD_some]
        refine ⟨fun l' hl' => ?_, fun u' hu' => ?_⟩
        · rw [← Option.some.inj hl']
          split
          · exact hlu
          · exact not_lt.mp hge
        · rw [← Option.some.inj hu']
          split
          · exact le_rfl
          · exact not_lt.mp ‹_›

structure Same (s s' : Servo) : Prop where
  min : s'.min = s.min
  max : s'.max = s.max

theorem differentiate_same (s : Servo) (measured h : ℚ) : Same s (differentiate s measured h) := by
  unfold differentiate
  split <;> exact ⟨rfl, rfl⟩

theorem integrate_same (s : Servo) (error h : ℚ) : Same s (integrate s error h) := by
  unfold integrate
  split <;> exact ⟨rfl, rfl⟩

/-- A step answers within the bounds, and leaves them. -/
theorem step_spec {s s' : Servo} {measured : Number} {dt : Option Number} {output : ℚ}
    (hbounds : Ordered s.min s.max) (h : step s measured dt = .ok (s', output)) :
    Same s s' ∧ Within s.min s.max output := by
  unfold step at h
  split at h
  · next q =>
    obtain ⟨rfl, rfl⟩ := Prod.mk.inj (Except.ok.inj h)
    have hdiff := differentiate_same s q (span s dt)
    have hint := integrate_same { differentiate s q (span s dt) with previousMeasured := some q }
      (s.setpoint - q) (span s dt)
    refine ⟨⟨hint.min.trans hdiff.min, hint.max.trans hdiff.max⟩, ?_⟩
    dsimp only
    rw [hdiff.min, hdiff.max]
    exact clamp_within hbounds _
  · cases h

theorem new_spec {o : Options} {min max : Option ℚ} {s : Servo} (h : new o min max = .ok s) :
    s.min = min ∧ s.max = max ∧ Ordered min max := by
  unfold new at h
  split at h
  · next lo hi =>
    split at h
    · cases h
    · next hle =>
      rw [← Except.ok.inj h]
      refine ⟨rfl, rfl, fun l hl u hu => ?_⟩
      rw [← Option.some.inj hl, ← Option.some.inj hu]
      exact not_lt.mp hle
  · next hopen =>
    rw [← Except.ok.inj h]
    refine ⟨rfl, rfl, fun l hl u hu => ?_⟩
    exact (hopen l u hl hu).elim

end PerformanceHelpers.PowerServo
