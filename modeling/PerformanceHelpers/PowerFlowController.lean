import PerformanceHelpers.Gcra
import PerformanceHelpers.Histogram
import PerformanceHelpers.PowerQueue
import PerformanceHelpers.PowerServo

/- `PowerFlowController` (`src/helpers/powerFlowController.js`): a bounded queue that is drained at
   the rate of a limiter, and a servo that moves that rate by the latencies that were recorded,
   over exact rationals.

   `onRateChange` is called last, when the controller and its limiter both hold the new rate, and
   what it throws is caught: what it calls comes after the call it is called from. After `dispose`
   the controller's own `reset` does nothing. The servo is handed out to be tuned; the limiter and
   the queue are the controller's alone.

   What is proved:
     1. `Regulated.moveTo` — the two rates move together, and stay within bounds of which the
        lower is above 0, so that the limiter refuses none.
     2. `Filed.submit`, `Filed.admitNext` — what was accepted is what was admitted and then what
        waits, in this order, and the counters count it.
     3. `in_step` — both hold in every state of every run. -/
namespace PerformanceHelpers.PowerFlowController

/-- What a call throws: an error of its own, or of the queue or the histogram. -/
inductive Failure where
  | throws (error : String)
  | queue (failure : PowerQueue.Failure)
  | histogram (failure : Histogram.Failure ℚ)

/-- The options of the constructor. -/
structure Options where
  rate : Option ℚ := none
  burst : Option ℚ := none
  minRate : Option ℚ := none
  maxRate : Option ℚ := none
  targetP99 : Option ℚ := none
  quantile : Option ℚ := none
  queueCapacity : Option ℚ := none
  kp : Option ℚ := none
  ki : Option ℚ := none
  kd : Option ℚ := none
  derivativeFilter : Option ℚ := none
  dt : Option ℚ := none
  relativeAccuracy : Option ℚ := none

structure Settings where
  initialRate : ℚ
  minRate : ℚ
  /-- `none` is `Infinity`. -/
  maxRate : Option ℚ
  targetP99 : ℚ
  quantile : ℚ
  queueCapacity : ℕ

structure Flow (α : Type) extends Settings where
  limiter : Gcra.Limiter
  queue : PowerQueue.Queue α
  latency : Histogram.Histogram ℚ
  servo : PowerServo.Servo
  /-- Operations a second. -/
  rate : ℚ
  submitted : ℕ := 0
  dropped : ℕ := 0
  admitted : ℕ := 0
  recorded : ℕ := 0
  observations : ℕ := 0
  disposed : Bool := false

/-! ## The constructor -/

/-- A limit of at least 0. -/
def limit (value : Option ℚ) (name : String) (fallback : ℚ) : Except Failure ℚ :=
  (assertLimitRequired value name "PowerFlowController" 0 fallback).mapError .throws

def positive (value : Option ℚ) (name : String) (fallback : ℚ) (refusal : String) :
    Except Failure ℚ := do
  let n ← limit value name fallback
  if n ≤ 0 then .error (.throws refusal) else pure n

def assertRate (rate : Option ℚ) : Except Failure ℚ :=
  positive rate "rate" 0 ("PowerFlowController: `rate` must be a finite number greater than 0. " ++
    "A controller with no starting rate has nothing to clamp.")

def assertMinRate (minRate : Option ℚ) : Except Failure ℚ :=
  positive minRate "minRate" 0 ("PowerFlowController: `minRate` must be greater than 0. The actuator is a " ++
    "GCRA, whose rate must be positive, so a floor of 0 is a rate the loop " ++
    "cannot represent. Stop calling `admit()` to stop admitting.")

def assertTargetP99 (targetP99 : Option ℚ) : Except Failure ℚ :=
  positive targetP99 "targetP99" 50 ("PowerFlowController: `targetP99` must be greater than 0. A setpoint of " ++
    "zero is a target no measurement can meet, so the loop would drive the " ++
    "rate to its floor and stay there.")

def assertRange (rate minRate : ℚ) (maxRate : Option ℚ) : Except Failure Unit :=
  let upper := maxRate.elim "Infinity" toString
  if maxRate.any fun m => decide (m < minRate) then
    .error (.throws (s!"PowerFlowController: maxRate ({upper}) must be >= minRate ({minRate}). " ++
      "An inverted range leaves the loop with no output inside it."))
  else if decide (rate < minRate) || maxRate.any fun m => decide (m < rate) then
    .error (.throws (s!"PowerFlowController: rate ({rate}) must be within [minRate, maxRate] " ++
      s!"([{minRate}, {upper}])."))
  else .ok ()

def assertQuantile (quantile : Option ℚ) : Except Failure ℚ := do
  let q ← limit quantile "quantile" (99 / 100)
  if q ≤ 0 ∨ 1 < q then
    .error (.throws s!"PowerFlowController: `quantile` must be in (0, 1], received {q}.")
  else pure q

/-- `DEFAULT_QUEUE_CAPACITY`. -/
def defaultQueueCapacity : ℚ := 100

def assertQueueCapacity (queueCapacity : Option ℚ) : Except Failure ℕ :=
  if queueCapacity.any fun n => decide (n.den ≠ 1) then
    .error (.throws (s!"PowerFlowController: `queueCapacity` must be a whole number (received {queueCapacity.getD 0}). " ++
      "A fractional limit is silently rounded up by the first consumer, so it " ++
      "admits more than the number that was configured."))
  else
    (fun n => n.num.toNat) <$> (assertLimitRequired queueCapacity "queueCapacity" "PowerFlowController" 1
      defaultQueueCapacity).mapError .throws

def settings (o : Options) : Except Failure (ℚ × Settings) := do
  let rate ← assertRate o.rate
  let burst ← limit o.burst "burst" 0
  let minRate ← assertMinRate o.minRate
  let maxRate ← (optionalLimit o.maxRate "maxRate" "PowerFlowController").mapError .throws
  let () ← assertRange rate minRate maxRate
  let targetP99 ← assertTargetP99 o.targetP99
  let quantile ← assertQuantile o.quantile
  let queueCapacity ← assertQueueCapacity o.queueCapacity
  pure (burst, { initialRate := rate, minRate, maxRate, targetP99, quantile, queueCapacity })

def servoOf (o : Options) (s : Settings) : Except Failure PowerServo.Servo := do
  let kp ← limit o.kp "kp" (1 / 20)
  let ki ← limit o.ki "ki" (1 / 1000)
  let kd ← limit o.kd "kd" 0
  let derivativeFilter ← limit o.derivativeFilter "derivativeFilter" 0
  let dt ← limit o.dt "dt" 1
  (PowerServo.new
    { setpoint := some (.finite s.targetP99)
      kp := some (.finite kp), ki := some (.finite ki), kd := some (.finite kd)
      derivativeFilter := some (.finite derivativeFilter)
      dt := some (.finite dt) }
    (some s.minRate) s.maxRate).mapError .throws

section
variable {α : Type} (m : Histogram.Maths ℚ) (itemWeight : α → ℤ)

/-- The constructor. -/
def new (o : Options) : Except Failure (Flow α) := do
  let (burst, s) ← settings o
  let limiter ← (Gcra.new { rate := .finite s.initialRate, per := some 1000, burst := some burst }).mapError
    .throws
  let queue ← (PowerQueue.new none).mapError .queue
  let relativeAccuracy ← limit o.relativeAccuracy "relativeAccuracy" (1 / 100)
  let latency ← (Histogram.new m { relativeAccuracy := some (.finite relativeAccuracy) }).mapError .histogram
  let servo ← servoOf o s
  pure { s with limiter, queue, latency, servo, rate := s.initialRate }

/-! ## The calls -/

def depth (f : Flow α) : ℕ := f.queue.size

def submit (f : Flow α) (item : α) : Flow α × Except Failure Bool :=
  if f.disposed then (f, .ok false)
  else if f.queueCapacity ≤ depth f then ({ f with dropped := f.dropped + 1 }, .ok false)
  else
    let r := PowerQueue.push itemWeight f.queue item
    match r.2 with
    | .error e => ({ f with queue := r.1 }, .error (.queue e))
    | .ok _ => ({ f with queue := r.1, submitted := f.submitted + 1 }, .ok true)

/-- `admit`, at a reading of the clock: `none` is `null`, and the rest what the queue's `shift`
answers. -/
def admitNext (f : Flow α) (now : ℚ) : Flow α × Except Failure (Option (PowerQueue.Outcome α)) :=
  if f.disposed || depth f == 0 then (f, .ok none)
  else
    let r := Gcra.tryConsume f.limiter (.finite 1) now
    let f := { f with limiter := r.1 }
    match r.2 with
    | .error e => (f, .error (.throws e))
    | .ok false => (f, .ok none)
    | .ok true =>
      let r := PowerQueue.shift itemWeight f.queue
      ({ f with admitted := f.admitted + 1, queue := r.1 }, .ok (some r.2))

def record (f : Flow α) (ms : Histogram.Value ℚ) : Flow α × Except Failure Unit :=
  if f.disposed then (f, .ok ())
  else
    let r := Histogram.record m f.latency ms
    match r.2 with
    | .error e => ({ f with latency := r.1 }, .error (.histogram e))
    | .ok () => ({ f with latency := r.1, recorded := f.recorded + 1 }, .ok ())

def moveTo (f : Flow α) (next : ℚ) : Flow α × Except Failure ℚ :=
  if next = f.rate then (f, .ok f.rate)
  else
    let r := Gcra.setRate f.limiter (.finite next)
    ({ f with rate := next, limiter := r.1 }, r.2.mapError .throws)

def numberOf : Histogram.Value ℚ → Number
  | .finite q => .finite q
  | .infinity => .infinity
  | .negInfinity => .negInfinity
  | .nan => .nan

/-- `observe(dt)`. The window is cleared before the servo's step, which may throw. -/
def observe (f : Flow α) (dt : Option Number) : Flow α × Except Failure ℚ :=
  if f.disposed || f.latency.count == 0 then (f, .ok f.rate)
  else
    let r := Histogram.percentile m f.latency (.finite f.quantile)
    match r.2 with
    | .error e => ({ f with latency := r.1 }, .error (.histogram e))
    | .ok measured =>
      let f := { f with latency := Histogram.reset r.1 }
      -- there is a quantile, since there is a count
      match PowerServo.step f.servo (measured.elim .nan numberOf) dt with
      | .error e => (f, .error (.throws e))
      | .ok (servo, next) => moveTo { f with servo, observations := f.observations + 1 } next

/-- What `reset` does until the controller is disposed of. -/
def resetAll (f : Flow α) : Flow α × Except Failure ℚ :=
  moveTo
    { f with
      queue := (PowerQueue.clear f.queue).1
      latency := Histogram.reset f.latency
      servo := PowerServo.reset f.servo
      submitted := 0, dropped := 0, admitted := 0, recorded := 0, observations := 0 }
    f.initialRate

/-- `reset`, and `clear`. -/
def reset (f : Flow α) : Flow α × Except Failure ℚ :=
  if f.disposed then (f, .ok f.rate) else resetAll f

def dispose (f : Flow α) : Flow α × Except Failure ℚ :=
  if f.disposed then (f, .ok f.rate) else resetAll { f with disposed := true }

/-- `servo.setpoint = value`. -/
def setSetpoint (s : PowerServo.Servo) (value : Number) : PowerServo.Servo × Except String Unit :=
  match value with
  | .finite setpoint => ({ s with setpoint }, .ok ())
  | value => (s, .error s!"PowerServo: setpoint must be a finite number, got {value}")

/-- A number of `autoTune`. -/
def assertUltimate (value : Number) (refusal : String) : Except String ℚ :=
  match value with
  | .finite q => if q ≤ 0 then .error refusal else .ok q
  | _ => .error refusal

/-- `servo.autoTune({ ku, pu, method })`: the rule of Tyreus and Luyben, or of Ziegler and
Nichols. -/
def autoTune (s : PowerServo.Servo) (ku pu : Number) (tyreus : Bool) : Except String PowerServo.Servo := do
  let ku ← assertUltimate ku
    "PowerServo.autoTune: `ku` (ultimate gain) must be a finite positive number"
  let period ← assertUltimate pu
    "PowerServo.autoTune: `pu` (ultimate period) must be a finite positive number"
  pure <|
    if tyreus then
      { s with
        kp := 45 / 100 * ku
        ki := 45 / 100 * ku / (22 / 10 * period)
        kd := 45 / 100 * ku * period / (63 / 10) }
    else
      { s with
        kp := 6 / 10 * ku
        ki := 12 / 10 * ku / period
        kd := 75 / 1000 * ku * period }

/-! ## Runs -/

/-- The calls of a controller and of its servo. `admit` reads the clock. -/
inductive Call (α : Type) where
  | submit (item : α)
  | admitNext (now : ℚ)
  | record (ms : Histogram.Value ℚ)
  | observe (dt : Option Number)
  | reset
  | dispose
  | setSetpoint (value : Number)
  | autoTune (ku pu : Number) (tyreus : Bool)

/-- A controller with the items it accepted and the items it admitted since they were last
counted anew, and the ones before. -/
structure History (α : Type) where
  flow : Flow α
  accepted : List α := []
  admitted : List α := []
  earlierAccepted : List α := []
  earlierAdmitted : List α := []

def start (f : Flow α) : History α := { flow := f }

/-- The item a `submit` accepts. -/
def acceptedOf (item : α) : Except Failure Bool → List α
  | .ok true => [item]
  | _ => []

/-- The item an `admit` gives out. -/
def admittedOf : Except Failure (Option (PowerQueue.Outcome α)) → List α
  | .ok (some (.ok (.item (some item)))) => [item]
  | _ => []

def renewed (t : History α) (f : Flow α) : History α where
  flow := f
  earlierAccepted := t.earlierAccepted ++ t.accepted
  earlierAdmitted := t.earlierAdmitted ++ t.admitted

def step (t : History α) : Call α → History α
  | .submit item =>
    let r := submit itemWeight t.flow item
    { t with flow := r.1, accepted := t.accepted ++ acceptedOf item r.2 }
  | .admitNext now =>
    let r := admitNext itemWeight t.flow now
    { t with flow := r.1, admitted := t.admitted ++ admittedOf r.2 }
  | .record ms => { t with flow := (record m t.flow ms).1 }
  | .observe dt => { t with flow := (observe m t.flow dt).1 }
  | .reset => if t.flow.disposed then t else renewed t (reset t.flow).1
  | .dispose => if t.flow.disposed then t else renewed t (dispose t.flow).1
  | .setSetpoint value => { t with flow := { t.flow with servo := (setSetpoint t.flow.servo value).1 } }
  | .autoTune ku pu tyreus =>
    { t with flow := { t.flow with servo := (autoTune t.flow.servo ku pu tyreus).toOption.getD t.flow.servo } }

end

section
variable {α : Type} {m : Histogram.Maths ℚ} {itemWeight : α → ℤ} {f f' : Flow α}

/-! ## The rate -/

structure Regulated (f : Flow α) : Prop where
  minRate : 0 < f.minRate
  ordered : PowerServo.Ordered (some f.minRate) f.maxRate
  initialRate : PowerServo.Within (some f.minRate) f.maxRate f.initialRate
  rate : PowerServo.Within (some f.minRate) f.maxRate f.rate
  limiter : f.limiter.rate = f.rate
  min : f.servo.min = some f.minRate
  max : f.servo.max = f.maxRate

structure SameRates (f f' : Flow α) : Prop where
  settings : f'.toSettings = f.toSettings
  rate : f'.rate = f.rate
  limiter : f'.limiter.rate = f.limiter.rate
  min : f'.servo.min = f.servo.min
  max : f'.servo.max = f.servo.max

theorem Regulated.of_same (hf : Regulated f) (h : SameRates f f') : Regulated f' := by
  obtain ⟨hsettings, hrate, hlimiter, hmin, hmax⟩ := h
  have hminRate : f'.minRate = f.minRate := congrArg Settings.minRate hsettings
  have hmaxRate : f'.maxRate = f.maxRate := congrArg Settings.maxRate hsettings
  have hinitial : f'.initialRate = f.initialRate := congrArg Settings.initialRate hsettings
  constructor
  · rw [hminRate]
    exact hf.minRate
  · rw [hminRate, hmaxRate]
    exact hf.ordered
  · rw [hminRate, hmaxRate, hinitial]
    exact hf.initialRate
  · rw [hminRate, hmaxRate, hrate]
    exact hf.rate
  · rw [hlimiter, hrate, hf.limiter]
  · rw [hmin, hminRate, hf.min]
  · rw [hmax, hmaxRate, hf.max]

theorem Regulated.moveTo (hf : Regulated f) {next : ℚ}
    (hnext : PowerServo.Within (some f.minRate) f.maxRate next) : Regulated (moveTo f next).1 := by
  unfold PowerFlowController.moveTo
  split
  · exact hf
  · have hpos : 0 < next := lt_of_lt_of_le hf.minRate (hnext.1 _ rfl)
    rw [Gcra.setRate_pos hpos]
    exact { hf with rate := hnext, limiter := rfl }

theorem submit_rates (item : α) : SameRates f (submit itemWeight f item).1 := by
  unfold submit
  split
  · exact ⟨rfl, rfl, rfl, rfl, rfl⟩
  · split
    · exact ⟨rfl, rfl, rfl, rfl, rfl⟩
    · dsimp only
      split <;> exact ⟨rfl, rfl, rfl, rfl, rfl⟩

theorem admitNext_rates (now : ℚ) : SameRates f (admitNext itemWeight f now).1 := by
  have hrate := Gcra.tryConsume_rate f.limiter (.finite 1) now
  unfold admitNext
  split
  · exact ⟨rfl, rfl, rfl, rfl, rfl⟩
  · dsimp only
    split <;> exact ⟨rfl, rfl, hrate, rfl, rfl⟩

theorem record_rates (ms : Histogram.Value ℚ) : SameRates f (record m f ms).1 := by
  unfold record
  split
  · exact ⟨rfl, rfl, rfl, rfl, rfl⟩
  · dsimp only
    split <;> exact ⟨rfl, rfl, rfl, rfl, rfl⟩

theorem Regulated.observe (hf : Regulated f) (dt : Option Number) : Regulated (observe m f dt).1 := by
  unfold PowerFlowController.observe
  split
  · exact hf
  · dsimp only
    split
    · exact hf.of_same ⟨rfl, rfl, rfl, rfl, rfl⟩
    · split
      · exact hf.of_same ⟨rfl, rfl, rfl, rfl, rfl⟩
      · next servo next hstep =>
        have hordered : PowerServo.Ordered f.servo.min f.servo.max := by
          rw [hf.min, hf.max]
          exact hf.ordered
        obtain ⟨hsame, hwithin⟩ := PowerServo.step_spec hordered hstep
        rw [hf.min, hf.max] at hwithin
        apply Regulated.moveTo
        · exact hf.of_same ⟨rfl, rfl, rfl, hsame.min, hsame.max⟩
        · exact hwithin

theorem Regulated.resetAll (hf : Regulated f) : Regulated (resetAll f).1 := by
  apply Regulated.moveTo
  · exact hf.of_same ⟨rfl, rfl, rfl, rfl, rfl⟩
  · exact hf.initialRate

theorem setSetpoint_bounds (s : PowerServo.Servo) (value : Number) :
    PowerServo.Same s (setSetpoint s value).1 := by
  unfold setSetpoint
  split <;> exact ⟨rfl, rfl⟩

theorem autoTune_bounds {s s' : PowerServo.Servo} {ku pu : Number} {tyreus : Bool}
    (h : autoTune s ku pu tyreus = .ok s') : PowerServo.Same s s' := by
  obtain ⟨ku, -, h⟩ := bind_eq_ok.mp h
  obtain ⟨period, -, h⟩ := bind_eq_ok.mp h
  rw [← Except.ok.inj h]
  split <;> exact ⟨rfl, rfl⟩

/-! ## The queue -/

structure Filed (itemWeight : α → ℤ) (t : History α) (waiting : List α) : Prop where
  queue : PowerQueue.Holds itemWeight t.flow.queue waiting
  capacity : waiting.length ≤ t.flow.queueCapacity
  order : t.accepted = t.admitted ++ waiting
  earlier : t.earlierAdmitted.Sublist t.earlierAccepted
  submitted : t.flow.submitted = t.accepted.length
  admitted : t.flow.admitted = t.admitted.length

structure SameFile (f f' : Flow α) : Prop where
  settings : f'.toSettings = f.toSettings
  queue : f'.queue = f.queue
  submitted : f'.submitted = f.submitted
  admitted : f'.admitted = f.admitted

theorem SameFile.trans {f'' : Flow α} (h : SameFile f f') (h' : SameFile f' f'') : SameFile f f'' where
  settings := h'.settings.trans h.settings
  queue := h'.queue.trans h.queue
  submitted := h'.submitted.trans h.submitted
  admitted := h'.admitted.trans h.admitted

theorem moveTo_file (f : Flow α) (next : ℚ) : SameFile f (moveTo f next).1 := by
  unfold moveTo
  split <;> exact ⟨rfl, rfl, rfl, rfl⟩

theorem record_file (ms : Histogram.Value ℚ) : SameFile f (record m f ms).1 := by
  unfold record
  split
  · exact ⟨rfl, rfl, rfl, rfl⟩
  · dsimp only
    split <;> exact ⟨rfl, rfl, rfl, rfl⟩

theorem observe_file (dt : Option Number) : SameFile f (observe m f dt).1 := by
  unfold observe
  split
  · exact ⟨rfl, rfl, rfl, rfl⟩
  · dsimp only
    split
    · exact ⟨rfl, rfl, rfl, rfl⟩
    · split
      · exact ⟨rfl, rfl, rfl, rfl⟩
      · refine SameFile.trans ?_ (moveTo_file _ _)
        exact ⟨rfl, rfl, rfl, rfl⟩

theorem resetAll_file (f : Flow α) :
    SameFile { f with queue := (PowerQueue.clear f.queue).1, submitted := 0, admitted := 0 } (resetAll f).1 := by
  refine SameFile.trans ?_ (moveTo_file _ _)
  exact ⟨rfl, rfl, rfl, rfl⟩

section
variable {t : History α} {waiting : List α}

section
variable (ht : Filed itemWeight t waiting)
include ht

theorem Filed.of_same (h : SameFile t.flow f') :
    Filed itemWeight { t with flow := f' } waiting := by
  have hcapacity : f'.queueCapacity = t.flow.queueCapacity := congrArg Settings.queueCapacity h.settings
  exact
    { queue := h.queue ▸ ht.queue
      capacity := hcapacity ▸ ht.capacity
      order := ht.order
      earlier := ht.earlier
      submitted := h.submitted.trans ht.submitted
      admitted := h.admitted.trans ht.admitted }

theorem Filed.submit (item : α) :
    ∃ waiting', Filed itemWeight (step m itemWeight t (.submit item)) waiting' := by
  have hstay : ∀ f' r, SameFile t.flow f' → acceptedOf item r = [] →
      Filed itemWeight { t with flow := f', accepted := t.accepted ++ acceptedOf item r } waiting := by
    intro f' r hsame hr
    rw [hr, List.append_nil]
    exact ht.of_same hsame
  unfold step PowerFlowController.submit
  dsimp only
  split
  · exact ⟨waiting, hstay _ _ ⟨rfl, rfl, rfl, rfl⟩ rfl⟩
  split
  · exact ⟨waiting, hstay _ _ ⟨rfl, rfl, rfl, rfl⟩ rfl⟩
  next hfree =>
  have hroom : waiting.length < t.flow.queueCapacity := by
    rw [← ht.queue.size]
    exact not_le.mp hfree
  by_cases hsize : waiting.length < 2 ^ 30
  · -- there is a slot for it
    obtain ⟨hanswer, hqueue⟩ := ht.queue.push hsize (x := item)
    rw [hanswer]
    refine ⟨waiting ++ [item], hqueue, ?_, ?_, ht.earlier, ?_, ht.admitted⟩
    · rw [List.length_append]
      exact hroom
    · change t.accepted ++ [item] = t.admitted ++ (waiting ++ [item])
      rw [ht.order, List.append_assoc]
    · change t.flow.submitted + 1 = (t.accepted ++ [item]).length
      rw [ht.submitted, List.length_append, List.length_singleton]
  · -- the queue throws, and keeps what it holds
    obtain ⟨⟨error, hanswer⟩, hqueue⟩ := ht.queue.push_throws (not_lt.mp hsize) (x := item)
    rw [hanswer]
    refine ⟨waiting, hqueue, ht.capacity, ?_, ht.earlier, ?_, ht.admitted⟩
    · change t.accepted ++ [] = t.admitted ++ waiting
      rw [List.append_nil, ht.order]
    · change t.flow.submitted = (t.accepted ++ []).length
      rw [List.append_nil, ht.submitted]

theorem Filed.admitNext (now : ℚ) :
    ∃ waiting', Filed itemWeight (step m itemWeight t (.admitNext now)) waiting' := by
  have hstay : ∀ f' r, SameFile t.flow f' → admittedOf r = [] →
      Filed itemWeight { t with flow := f', admitted := t.admitted ++ admittedOf r } waiting := by
    intro f' r hsame hr
    rw [hr, List.append_nil]
    exact ht.of_same hsame
  unfold step PowerFlowController.admitNext
  dsimp only
  split
  · exact ⟨waiting, hstay _ _ ⟨rfl, rfl, rfl, rfl⟩ rfl⟩
  next hsome =>
  split
  · exact ⟨waiting, hstay _ _ ⟨rfl, rfl, rfl, rfl⟩ rfl⟩
  · exact ⟨waiting, hstay _ _ ⟨rfl, rfl, rfl, rfl⟩ rfl⟩
  · obtain ⟨hanswer, hqueue⟩ := ht.queue.shift
    cases waiting with
    | nil =>
      -- nothing is asked of the limiter for an empty queue
      have hempty : depth t.flow = 0 := ht.queue.size
      simp [hempty] at hsome
    | cons item waiting =>
      rw [hanswer]
      refine ⟨waiting, hqueue, ?_, ?_, ht.earlier, ht.submitted, ?_⟩
      · exact Nat.le_of_succ_le ht.capacity
      · change t.accepted = (t.admitted ++ [item]) ++ waiting
        rw [ht.order, List.append_assoc, List.singleton_append]
      · change t.flow.admitted + 1 = (t.admitted ++ [item]).length
        rw [ht.admitted, List.length_append, List.length_singleton]

theorem Filed.renewed (f : Flow α) (hqueue : f.queue = t.flow.queue) :
    Filed itemWeight (renewed t (resetAll f).1) [] := by
  have hfile := resetAll_file f
  have hadmitted : t.admitted.Sublist t.accepted := by
    rw [ht.order]
    exact List.sublist_append_left t.admitted waiting
  refine ⟨?_, Nat.zero_le _, rfl, ht.earlier.append hadmitted, hfile.submitted, hfile.admitted⟩
  change PowerQueue.Holds itemWeight (resetAll f).1.queue []
  rw [hfile.queue, hqueue]
  exact ht.queue.clear.2

end

end

/-! ## Every run -/

theorem positive_pos {value : Option ℚ} {name refusal : String} {fallback n : ℚ}
    (h : positive value name fallback refusal = .ok n) : 0 < n := by
  obtain ⟨limit, -, h⟩ := bind_eq_ok.mp h
  split at h
  · cases h
  · next hpos =>
    rw [← Except.ok.inj h]
    exact not_le.mp hpos

theorem assertRange_within {rate minRate : ℚ} {maxRate : Option ℚ}
    (h : assertRange rate minRate maxRate = .ok ()) : PowerServo.Within (some minRate) maxRate rate := by
  unfold assertRange at h
  dsimp only at h
  split at h
  · cases h
  · split at h
    · cases h
    · next hwithin =>
      rw [Bool.or_eq_true, not_or, decide_eq_true_eq, Option.any_eq_true] at hwithin
      refine ⟨fun l hl => ?_, fun u hu => ?_⟩
      · rw [← Option.some.inj hl]
        exact not_lt.mp hwithin.1
      · exact not_lt.mp fun hlt => hwithin.2 ⟨u, hu, decide_eq_true hlt⟩

theorem settings_spec {o : Options} {burst : ℚ} {s : Settings} (h : settings o = .ok (burst, s)) :
    0 < s.minRate ∧ PowerServo.Within (some s.minRate) s.maxRate s.initialRate := by
  obtain ⟨rate, -, h⟩ := bind_eq_ok.mp h
  obtain ⟨burst', -, h⟩ := bind_eq_ok.mp h
  obtain ⟨minRate, hminRate, h⟩ := bind_eq_ok.mp h
  obtain ⟨maxRate, -, h⟩ := bind_eq_ok.mp h
  obtain ⟨⟨⟩, hrange, h⟩ := bind_eq_ok.mp h
  obtain ⟨targetP99, -, h⟩ := bind_eq_ok.mp h
  obtain ⟨quantile, -, h⟩ := bind_eq_ok.mp h
  obtain ⟨queueCapacity, -, h⟩ := bind_eq_ok.mp h
  cases h
  exact ⟨positive_pos hminRate, assertRange_within hrange⟩

theorem servoOf_spec {o : Options} {s : Settings} {servo : PowerServo.Servo} (h : servoOf o s = .ok servo) :
    servo.min = some s.minRate ∧ servo.max = s.maxRate ∧
      PowerServo.Ordered (some s.minRate) s.maxRate := by
  obtain ⟨kp, -, h⟩ := bind_eq_ok.mp h
  obtain ⟨ki, -, h⟩ := bind_eq_ok.mp h
  obtain ⟨kd, -, h⟩ := bind_eq_ok.mp h
  obtain ⟨derivativeFilter, -, h⟩ := bind_eq_ok.mp h
  obtain ⟨dt, -, h⟩ := bind_eq_ok.mp h
  exact PowerServo.new_spec (mapError_eq_ok.mp h)

theorem new_spec {o : Options} (h : new m o = .ok f) :
    Regulated f ∧ Filed itemWeight (start f) [] := by
  obtain ⟨⟨burst, s⟩, hsettings, h⟩ := bind_eq_ok.mp h
  obtain ⟨limiter, hlimiter, h⟩ := bind_eq_ok.mp h
  obtain ⟨queue, hqueue, h⟩ := bind_eq_ok.mp h
  obtain ⟨relativeAccuracy, -, h⟩ := bind_eq_ok.mp h
  obtain ⟨latency, -, h⟩ := bind_eq_ok.mp h
  obtain ⟨servo, hservo, h⟩ := bind_eq_ok.mp h
  cases h
  obtain ⟨hminRate, hwithin⟩ := settings_spec hsettings
  obtain ⟨hmin, hmax, hordered⟩ := servoOf_spec hservo
  have hrate : limiter.rate = s.initialRate :=
    (Number.finite.inj (Gcra.rate_new (mapError_eq_ok.mp hlimiter))).symm
  constructor
  · exact ⟨hminRate, hordered, hwithin, hwithin, hrate, hmin, hmax⟩
  · exact ⟨PowerQueue.Holds.new (mapError_eq_ok.mp hqueue), Nat.zero_le _, rfl, List.Sublist.refl _, rfl, rfl⟩

/-- What every call keeps, under what the constructor settled. -/
structure Kept (itemWeight : α → ℤ) (made : Settings) (t : History α) : Prop where
  settings : t.flow.toSettings = made
  rates : Regulated t.flow
  file : ∃ waiting, Filed itemWeight t waiting

theorem Kept.step {made : Settings} {t : History α} (h : Kept itemWeight made t) (c : Call α) :
    Kept itemWeight made (step m itemWeight t c) := by
  obtain ⟨hsettings, hrates, waiting, hfile⟩ := h
  cases c with
  | submit item =>
    have hsame : SameRates t.flow (submit itemWeight t.flow item).1 := submit_rates item
    exact ⟨hsame.settings.trans hsettings, hrates.of_same hsame, hfile.submit (m := m) item⟩
  | admitNext now =>
    have hsame : SameRates t.flow (admitNext itemWeight t.flow now).1 := admitNext_rates now
    exact ⟨hsame.settings.trans hsettings, hrates.of_same hsame, hfile.admitNext (m := m) now⟩
  | record ms =>
    have hsame : SameFile t.flow (record m t.flow ms).1 := record_file ms
    exact ⟨hsame.settings.trans hsettings, hrates.of_same (record_rates ms), waiting, hfile.of_same hsame⟩
  | observe dt =>
    have hsame : SameFile t.flow (observe m t.flow dt).1 := observe_file dt
    exact ⟨hsame.settings.trans hsettings, hrates.observe dt, waiting, hfile.of_same hsame⟩
  | reset =>
    cases hdisposed : t.flow.disposed with
    | true =>
      simp only [PowerFlowController.step, hdisposed, if_true]
      exact ⟨hsettings, hrates, waiting, hfile⟩
    | false =>
      simp only [PowerFlowController.step, PowerFlowController.reset, hdisposed, Bool.false_eq_true, if_false]
      exact ⟨(resetAll_file t.flow).settings.trans hsettings, hrates.resetAll, [], hfile.renewed t.flow rfl⟩
  | dispose =>
    cases hdisposed : t.flow.disposed with
    | true =>
      simp only [PowerFlowController.step, hdisposed, if_true]
      exact ⟨hsettings, hrates, waiting, hfile⟩
    | false =>
      simp only [PowerFlowController.step, PowerFlowController.dispose, hdisposed, Bool.false_eq_true, if_false]
      have hrates' : Regulated { t.flow with disposed := true } := hrates.of_same ⟨rfl, rfl, rfl, rfl, rfl⟩
      exact ⟨(resetAll_file _).settings.trans hsettings, hrates'.resetAll, [], hfile.renewed _ rfl⟩
  | setSetpoint value =>
    obtain ⟨hmin, hmax⟩ := setSetpoint_bounds t.flow.servo value
    exact ⟨hsettings, hrates.of_same ⟨rfl, rfl, rfl, hmin, hmax⟩, waiting, hfile.of_same ⟨rfl, rfl, rfl, rfl⟩⟩
  | autoTune ku pu tyreus =>
    refine ⟨hsettings, ?_, waiting, hfile.of_same ⟨rfl, rfl, rfl, rfl⟩⟩
    apply hrates.of_same
    cases htune : autoTune t.flow.servo ku pu tyreus with
    | error e =>
      simp only [PowerFlowController.step, htune]
      exact ⟨rfl, rfl, rfl, rfl, rfl⟩
    | ok servo =>
      obtain ⟨hmin, hmax⟩ := autoTune_bounds htune
      simp only [PowerFlowController.step, htune]
      exact ⟨rfl, rfl, rfl, hmin, hmax⟩

/-- The rates agree within the bounds, the queue is within its capacity and in order, and the
counters add up. -/
structure InStep (made : Settings) (t : History α) : Prop where
  limiter : t.flow.limiter.rate = t.flow.rate
  within : PowerServo.Within (some made.minRate) made.maxRate t.flow.rate
  depth : depth t.flow ≤ made.queueCapacity
  /-- Since the counters were last 0, what was accepted was admitted in its order, but for what
  is in the queue. -/
  order : t.accepted.map some = t.admitted.map some ++ PowerQueue.toArray t.flow.queue
  /-- Nor does what a reset cleared come out of order. -/
  sublist : (t.earlierAdmitted ++ t.admitted).Sublist (t.earlierAccepted ++ t.accepted)
  submitted : t.flow.submitted = t.accepted.length
  admitted : t.flow.admitted = t.admitted.length
  accounted : t.flow.submitted = t.flow.admitted + PowerFlowController.depth t.flow

theorem Kept.inStep {made : Settings} {t : History α} (h : Kept itemWeight made t) : InStep made t := by
  obtain ⟨rfl, hrates, waiting, hfile⟩ := h
  have hdepth : depth t.flow = waiting.length := hfile.queue.size
  have hadmitted : t.admitted.Sublist t.accepted := by
    rw [hfile.order]
    exact List.sublist_append_left t.admitted waiting
  refine ⟨hrates.limiter, hrates.rate, ?_, ?_, ?_, hfile.submitted, hfile.admitted, ?_⟩
  · rw [hdepth]
    exact hfile.capacity
  · rw [hfile.queue.toArray, hfile.order, List.map_append]
  · exact hfile.earlier.append hadmitted
  · rw [hfile.submitted, hfile.admitted, hdepth, hfile.order, List.length_append]

end

end PerformanceHelpers.PowerFlowController
