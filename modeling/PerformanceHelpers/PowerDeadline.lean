import PerformanceHelpers.Options
import PerformanceHelpers.Run

/- `PowerDeadline.run` (`src/helpers/powerDeadline.js`) and the loop of `PowerRetry.run`
   (`src/helpers/powerRetry.js`) that it hands its attempts to.

   An attempt is a race of `fn`, the total timeout and the signal, inside the race of
   `PowerRetry` with the attempt's timeout. Between two attempts the loop asks `retryIf` and waits;
   it is given neither the signal nor the deadline. Timers fire on time: the clock does not move
   past one that is set, nor while jobs of the run are queued. The phases `starting`, `settled` and
   `decided` are those in which one is. An attempt that timed out may go on in the background;
   nothing it does reaches the run.

   What is proved:
     `bounded_iff` — the run is over by `start + totalTimeout` and after the jobs of an abort,
     and `fn` is not called after either, in every state of a run, exactly when neither finds
     the run between two attempts, and no signal aborts between the check of an attempt and its
     call of `fn`, which is a job of its own. A wait that is longer than what is left is not
     cut short (`wait_outlasts_deadline`). -/
namespace PerformanceHelpers.PowerDeadline

/-! ## Options -/

/-- `BACKOFF_STRATEGIES`. -/
inductive Backoff where
  | exponential
  | linear
  | fixed
  | decorrelated
  deriving DecidableEq

/-- The options, without the functions and the signal. -/
structure Options where
  maxAttempts : Option ℤ := none
  attemptTimeout : Option ℚ := none
  totalTimeout : Option ℚ := none
  retryDelay : Option ℚ := none
  backoff : Option Backoff := none
  baseDelay : Option ℚ := none
  maxDelay : Option ℚ := none
  jitter : Option Bool := none

/-- What a run goes by. -/
structure Config where
  attempts : ℕ
  attemptTimeout : Option ℚ
  totalTimeout : Option ℚ
  strategy : Backoff
  base : ℚ
  cap : ℚ
  jitter : Bool
  deriving DecidableEq

def timeoutOption (value : Option ℚ) (name : String) : Except String (Option ℚ) :=
  match value with
  | none => .ok none
  | some t => some <$> assertLimitRequired (some t) name "PowerDeadline" 1 1

/-- `resolveRunOptions` of `PowerRetry`, of the options that are handed to it. -/
def resolveRunOptions (attempts : ℕ) (attemptTimeout totalTimeout : Option ℚ) (o : Options) :
    Except String Config := do
  let strategy := o.backoff.getD .exponential
  let base ← assertLimitRequired o.baseDelay "baseDelay" "PowerRetry" 0 100
  let cap ← assertLimitRequired o.maxDelay "maxDelay" "PowerRetry" 0 10000
  let jitter := o.jitter.getD true
  if strategy = .decorrelated && !jitter then
    .error ("PowerRetry: `backoff: \"decorrelated\"` is defined as a randomised walk, " ++
      "so `jitter: false` contradicts it. Use `fixed` or `exponential` if " ++
      "you want a deterministic delay.")
  else pure { attempts, attemptTimeout, totalTimeout, strategy, base, cap, jitter }

/-- The options of `run`: `retryDelay` is a fixed backoff where none is given. -/
def resolve (o : Options) : Except String Config := do
  let attempts ← assertLimitRequired o.maxAttempts "maxAttempts" "PowerDeadline" 1 1
  let attemptTimeout ← timeoutOption o.attemptTimeout "attemptTimeout"
  let totalTimeout ← timeoutOption o.totalTimeout "totalTimeout"
  let delayMs ← assertLimitRequired o.retryDelay "retryDelay" "PowerDeadline" 0 0
  let o :=
    if 0 < delayMs && o.backoff.isNone then
      { o with
        backoff := some .fixed, baseDelay := some delayMs, maxDelay := some delayMs
        jitter := some false }
    else o
  resolveRunOptions attempts.toNat attemptTimeout totalTimeout o

def round (x : ℚ) : ℚ := ⌊x + 1 / 2⌋

/-- `calcDelay`, with the last draw of decorrelated jitter and what `Math.random` answers: the
delay, and the draw to remember. -/
def calcDelay (c : Config) (attempt : ℕ) (decorrelated random : ℚ) : ℚ × ℚ :=
  let plain (d : ℚ) : ℚ × ℚ :=
    let d := min d c.cap
    (if c.jitter then round (d * (1 / 2 + random * (1 / 2))) else d, decorrelated)
  match c.strategy with
  | .decorrelated =>
    let upper := max c.base (decorrelated * 3)
    let next := min c.cap (c.base + random * (upper - c.base))
    (round next, next)
  | .linear => plain (c.base * attempt)
  | .fixed => plain c.base
  | .exponential => plain (c.base * 2 ^ (attempt - 1))

/-! ## A run -/

/-- The `code` of an error. -/
inductive Code where
  | deadline
  | abort
  | timeout
  | other
  deriving DecidableEq

inductive Outcome where
  | resolved
  | failed (code : Code)
  deriving DecidableEq

inductive Phase where
  /-- The attempt has been checked and the call of `fn` is queued; `some` when the signal has
  decided the race before. -/
  | starting (raced : Option Code)
  | pending
  /-- The race is over, and its outcome is on its way to the loop. -/
  | settled (outcome : Outcome)
  /-- The promise that `retryIf` returned is awaited. -/
  | asking (code : Code)
  /-- The answer is on its way to the loop. -/
  | decided (code : Code) (should : Bool)
  | waiting (due : ℚ)
  | done (outcome : Outcome)
  deriving DecidableEq

/-- A run. `late` is not a variable of the source: the calls of `fn` once the signal has aborted
or the deadline has passed. -/
structure State where
  config : Config
  startedAt : ℚ
  now : ℚ
  aborted : Bool
  attempt : ℕ
  /-- When `PowerRetry` gives up on the attempt. -/
  attemptDue : Option ℚ
  decorrelated : ℚ
  phase : Phase
  late : ℕ

def State.deadlineAt (s : State) : Option ℚ := s.config.totalTimeout.map (s.startedAt + ·)

def State.passed (s : State) : Bool := s.deadlineAt.any (· ≤ s.now)

/-- `runAttempt` of `PowerRetry`, up to the `await` of `wrapAttempt`: the timers are set, and the
call of `fn` is queued unless the deadline has passed or the signal is aborted. -/
def runAttempt (s : State) (attempt : ℕ) : State :=
  let s := { s with attempt, attemptDue := s.config.attemptTimeout.map (s.now + ·) }
  if s.passed then { s with phase := .settled (.failed .deadline) }
  else if s.aborted then { s with phase := .settled (.failed .abort) }
  else { s with phase := .starting none }

/-- `run`, up to its first `await`. -/
def start (c : Config) (now : ℚ) (aborted : Bool) : State :=
  runAttempt
    { config := c, startedAt := now, now, aborted, attempt := 0, attemptDue := none
      decorrelated := c.base, phase := .pending, late := 0 } 1

/-- What happens to a run: the clock, the signal, its jobs, `fn`, `retryIf` and its timers. -/
inductive Event where
  | advance (now : ℚ)
  | abort
  /-- The job that calls `fn`. -/
  | call
  /-- What `fn` returned settles, or `fn` threw. -/
  | settle (outcome : Outcome)
  | attemptTimer
  | deadlineTimer
  /-- The outcome of the race comes to the loop, which asks `retryIf`; `none` when that returns a
  promise. -/
  | arrive (answer : Option Bool)
  /-- The promise of `retryIf` settles; a rejection is a no. -/
  | answer (should : Bool)
  /-- The loop goes by the answer; `random` is what `Math.random` gives it. -/
  | decide (random : ℚ)
  | wake

def State.idle (s : State) : Bool :=
  match s.phase with
  | .starting _ | .settled _ | .decided _ _ => false
  | .pending | .asking _ | .waiting _ | .done _ => true

def State.isDone (s : State) : Bool :=
  match s.phase with
  | .done _ => true
  | _ => false

/-- The run waits for `retryIf` or for its backoff. -/
def State.between (s : State) : Bool :=
  match s.phase with
  | .asking _ | .waiting _ => true
  | _ => false

def State.timers (s : State) : List ℚ :=
  match s.phase with
  | .pending => s.attemptDue.toList ++ s.deadlineAt.toList
  | .waiting due => [due]
  | _ => []

/-- The clock can move on to `t`. -/
def State.advances (s : State) (t : ℚ) : Bool :=
  s.idle && decide (s.now ≤ t) && s.timers.all (t ≤ ·)

/-- The error is one that `PowerDeadline` does not ask `retryIf` about. -/
def Code.terminal : Code → Bool
  | .deadline | .abort => true
  | .timeout | .other => false

/-- One event. One that cannot happen now is ignored. -/
def step (s : State) : Event → State
  | .advance t => if s.advances t then { s with now := t } else s
  | .abort =>
    if s.aborted then s
    else
      let s := { s with aborted := true }
      match s.phase with
      | .starting _ => { s with phase := .starting (some .abort) }
      | .pending => { s with phase := .settled (.failed .abort) }
      | _ => s
  | .call =>
    match s.phase with
    | .starting raced =>
      { s with
        phase := raced.elim .pending fun code => .settled (.failed code)
        late := if s.aborted || s.passed then s.late + 1 else s.late }
    | _ => s
  | .settle outcome =>
    match s.phase with
    | .pending => { s with phase := .settled outcome }
    | _ => s
  | .attemptTimer =>
    match s.phase with
    | .pending =>
      if s.attemptDue.any (· ≤ s.now) then { s with phase := .settled (.failed .timeout) } else s
    | _ => s
  | .deadlineTimer =>
    match s.phase with
    | .pending => if s.passed then { s with phase := .settled (.failed .deadline) } else s
    | _ => s
  | .arrive answer =>
    match s.phase with
    | .settled .resolved => { s with phase := .done .resolved }
    | .settled (.failed code) =>
      if code.terminal then { s with phase := .done (.failed code) }
      else { s with phase := answer.elim (.asking code) (.decided code) }
    | _ => s
  | .answer should =>
    match s.phase with
    | .asking code => { s with phase := .decided code should }
    | _ => s
  | .decide random =>
    match s.phase with
    | .decided code should =>
      if !should || s.attempt == s.config.attempts then { s with phase := .done (.failed code) }
      else
        let (delay, decorrelated) := calcDelay s.config s.attempt s.decorrelated random
        { s with decorrelated, phase := .waiting (s.now + delay) }
    | _ => s
  | .wake =>
    match s.phase with
    | .waiting due => if due ≤ s.now then runAttempt s (s.attempt + 1) else s
    | _ => s

/-! ## The bound -/

/-- The run is over by its deadline and after the jobs of an abort, and `fn` is not called after
either. -/
structure Bounded (s : State) : Prop where
  deadline : ∀ d ∈ s.deadlineAt, d < s.now → s.isDone = true
  abort : s.aborted = true → s.idle = true → s.isDone = true
  calls : s.late = 0

/-- The call of `fn` is queued. -/
def State.isStarting (s : State) : Bool :=
  match s.phase with
  | .starting _ => true
  | _ => false

/-- The loop would ask `retryIf` about the outcome. -/
def State.asks (s : State) : Bool :=
  match s.phase with
  | .settled (.failed code) => !code.terminal
  | _ => false

/-- The loop would wait. -/
def State.retries (s : State) : Bool :=
  match s.phase with
  | .decided _ should => should && s.attempt != s.config.attempts
  | _ => false

/-- Neither the deadline nor an abort finds the run between two attempts, and no abort comes
between the check of an attempt and its call. -/
def Attended (s : State) : Event → Prop
  | .advance t => s.advances t = true → s.between = true → ∀ d ∈ s.deadlineAt, t ≤ d
  | .abort => s.between = false
  | .call => s.isStarting = true → s.aborted = false
  | .arrive answer => s.asks = true → answer = none → s.aborted = false
  | .decide _ => s.retries = true → s.aborted = false
  | _ => True

instance (s : State) : (e : Event) → Decidable (Attended s e)
  | .advance t =>
    inferInstanceAs (Decidable (s.advances t = true → s.between = true → ∀ d ∈ s.deadlineAt, t ≤ d))
  | .abort => inferInstanceAs (Decidable (s.between = false))
  | .call => inferInstanceAs (Decidable (s.isStarting = true → s.aborted = false))
  | .arrive answer =>
    inferInstanceAs (Decidable (s.asks = true → answer = none → s.aborted = false))
  | .decide _ => inferInstanceAs (Decidable (s.retries = true → s.aborted = false))
  | .settle _ | .attemptTimer | .deadlineTimer | .answer _ | .wake => isTrue trivial

/-- What every event keeps: an attempt starts before the deadline. -/
def Timely (s : State) : Prop := ∀ raced, s.phase = .starting raced → s.passed = false

structure Same (s s' : State) : Prop where
  config : s'.config = s.config
  startedAt : s'.startedAt = s.startedAt
  now : s'.now = s.now

variable {c : Config} {o : Options} {s s' : State}

theorem Same.deadlineAt (h : Same s s') : s'.deadlineAt = s.deadlineAt := by
  rw [State.deadlineAt, State.deadlineAt, h.config, h.startedAt]

theorem Same.passed (h : Same s s') : s'.passed = s.passed := by
  rw [State.passed, State.passed, h.deadlineAt, h.now]

theorem runAttempt_spec (s : State) (attempt : ℕ) :
    Same s (runAttempt s attempt) ∧ (runAttempt s attempt).aborted = s.aborted ∧
    (runAttempt s attempt).late = s.late ∧
    ((∃ code, (runAttempt s attempt).phase = .settled (.failed code)) ∨
      (runAttempt s attempt).phase = .starting none ∧ s.passed = false) := by
  have hpassed : ({ s with attempt, attemptDue := s.config.attemptTimeout.map (s.now + ·) } :
      State).passed = s.passed := rfl
  unfold runAttempt
  simp only [hpassed]
  split_ifs with hp ha
  · exact ⟨⟨rfl, rfl, rfl⟩, rfl, rfl, Or.inl ⟨.deadline, rfl⟩⟩
  · exact ⟨⟨rfl, rfl, rfl⟩, rfl, rfl, Or.inl ⟨.abort, rfl⟩⟩
  · exact ⟨⟨rfl, rfl, rfl⟩, rfl, rfl, Or.inr ⟨rfl, Bool.eq_false_iff.mpr hp⟩⟩

/-- Between two attempts the run is idle, and not over. -/
theorem between_phase (h : s.between = true) : s.idle = true ∧ s.isDone = false := by
  unfold State.between at h
  unfold State.idle State.isDone
  cases hphase : s.phase with
  | asking code | waiting due => exact ⟨rfl, rfl⟩
  | _ => rw [hphase] at h; exact nomatch h

/-- A run that is neither over nor between two attempts is not past its deadline when the clock
has moved. -/
theorem advances_deadline {t : ℚ} (h : s.advances t = true) (hdone : s.isDone = false)
    (hbetween : s.between = false) : ∀ d ∈ s.deadlineAt, t ≤ d := by
  intro d hd
  unfold State.advances at h
  cases hphase : s.phase with
  | pending =>
    simp only [Bool.and_eq_true, State.timers, hphase, List.all_append, List.all_eq_true,
      Option.mem_toList, decide_eq_true_eq] at h
    exact h.2.2 d hd
  | asking code => simp only [State.between, hphase] at hbetween; exact nomatch hbetween
  | waiting due => simp only [State.between, hphase] at hbetween; exact nomatch hbetween
  | done outcome => simp only [State.isDone, hphase] at hdone; exact nomatch hdone
  | starting raced | settled outcome | decided code should => simp [State.idle, hphase] at h

section
variable (hb : Bounded s)
include hb

/-- A step that leaves the clock alone bounds a run as before, where what it leaves idle and
aborted is over. -/
theorem Bounded.of_same (h : Same s s')
    (hdone : s.isDone = true → s'.isDone = true)
    (habort : s'.aborted = true → s'.idle = true → s'.isDone = true) (hlate : s'.late = 0) :
    Bounded s' := by
  refine ⟨fun d hd hlt => ?_, habort, hlate⟩
  rw [h.deadlineAt] at hd
  rw [h.now] at hlt
  exact hdone (hb.deadline d hd hlt)

/-- A step to a phase in which a job is queued keeps the bound. -/
theorem Bounded.busy (h : Same s s') (hdone : s.isDone = false)
    (hbusy : s'.idle = false) (hlate : s'.late = s.late) : Bounded s' := by
  refine hb.of_same h (fun hd => ?_) (fun _ hi => ?_) (hlate.trans hb.calls)
  · rw [hdone] at hd
    exact nomatch hd
  · rw [hbusy] at hi
    exact nomatch hi

theorem Bounded.ends (h : Same s s') (hdone : s'.isDone = true)
    (hlate : s'.late = s.late) : Bounded s' :=
  hb.of_same h (fun _ => hdone) (fun _ _ => hdone) (hlate.trans hb.calls)

theorem Bounded.between_iff (h : Same s s')
    (hdone : s.isDone = false) (hbetween : s'.between = true) (haborted : s'.aborted = s.aborted)
    (hlate : s'.late = s.late) : Bounded s' ↔ s.aborted = false := by
  have hidle := between_phase hbetween
  constructor
  · intro hb'
    by_contra ha
    have hover := hb'.abort (haborted.trans (by simpa using ha)) hidle.1
    rw [hidle.2] at hover
    exact nomatch hover
  · intro ha
    refine hb.of_same h (fun hd => ?_) (fun ha' _ => ?_) (hlate.trans hb.calls)
    · rw [hdone] at hd
      exact nomatch hd
    · rw [haborted, ha] at ha'
      exact nomatch ha'

theorem Bounded.not_aborted (ha : s.aborted = true) :
    s.between = false := by
  by_contra hbetween
  obtain ⟨hidle, hdone⟩ := between_phase (by simpa using hbetween)
  have hover := hb.abort ha hidle
  rw [hdone] at hover
  exact nomatch hover

/-! One event at a time. -/

theorem advance_iff (t : ℚ) :
    Bounded (step s (.advance t)) ↔ Attended s (.advance t) := by
  simp only [step, Attended]
  by_cases hadv : s.advances t = true
  · rw [if_pos hadv]
    have hcalls : ({ s with now := t } : State).late = 0 := hb.calls
    constructor
    · intro hb' _ hbetween d hd
      by_contra hlt
      have hover : s.isDone = true := hb'.deadline d hd (not_le.mp hlt)
      rw [(between_phase hbetween).2] at hover
      exact nomatch hover
    · intro hattended
      refine ⟨fun d hd hlt => ?_, hb.abort, hcalls⟩
      show s.isDone = true
      by_contra hdone
      have hdone : s.isDone = false := by simpa using hdone
      have hlt : d < t := hlt
      by_cases hbetween : s.between = true
      · exact absurd (hattended hadv hbetween d hd) (not_le.mpr hlt)
      · have hle := advances_deadline hadv hdone (by simpa using hbetween) d hd
        exact absurd hle (not_le.mpr hlt)
  · rw [if_neg hadv]
    exact ⟨fun _ h => absurd h hadv, fun _ => hb⟩

theorem abort_iff : Bounded (step s .abort) ↔ Attended s .abort := by
  show Bounded (step s .abort) ↔ s.between = false
  by_cases ha : s.aborted = true
  · have hstep : step s .abort = s := by simp only [step, if_pos ha]
    rw [hstep]
    exact ⟨fun _ => hb.not_aborted ha, fun _ => hb⟩
  · have hdone : ∀ {phase}, s.phase = phase → s.isDone = (match phase with
        | .done _ => true
        | _ => false) := by
      intro phase hphase
      rw [State.isDone, hphase]
    simp only [step, if_neg ha, State.between]
    cases hphase : s.phase with
    | starting raced => exact ⟨fun _ => rfl, fun _ => hb.busy ⟨rfl, rfl, rfl⟩ (hdone hphase) rfl rfl⟩
    | pending => exact ⟨fun _ => rfl, fun _ => hb.busy ⟨rfl, rfl, rfl⟩ (hdone hphase) rfl rfl⟩
    | settled outcome => exact ⟨fun _ => rfl, fun _ => hb.busy ⟨rfl, rfl, rfl⟩ (hdone hphase) rfl rfl⟩
    | decided code should =>
      exact ⟨fun _ => rfl, fun _ => hb.busy ⟨rfl, rfl, rfl⟩ (hdone hphase) rfl rfl⟩
    | done outcome => exact ⟨fun _ => rfl, fun _ => hb.ends ⟨rfl, rfl, rfl⟩ rfl rfl⟩
    | asking code => exact ⟨fun hb' => (nomatch hb'.abort rfl rfl), fun hno => (nomatch hno)⟩
    | waiting due => exact ⟨fun hb' => (nomatch hb'.abort rfl rfl), fun hno => (nomatch hno)⟩

end

theorem call_iff (ht : Timely s) (hb : Bounded s) :
    Bounded (step s .call) ↔ Attended s .call := by
  cases hphase : s.phase with
  | starting raced =>
    have hpassed := ht raced hphase
    have hlate : (step s .call).late = if s.aborted then 1 else 0 := by
      simp only [step, hphase, hpassed, Bool.or_false, hb.calls]
    have hsame : Same s (step s .call) := by
      simp only [step, hphase]
      exact ⟨rfl, rfl, rfl⟩
    have haborted : (step s .call).aborted = s.aborted := by simp only [step, hphase]
    have hdone : s.isDone = false := by simp only [State.isDone, hphase]
    constructor
    · intro hb' _
      by_contra ha
      rw [if_pos (by simpa using ha)] at hlate
      exact absurd (hlate.symm.trans hb'.calls) Nat.one_ne_zero
    · intro hattended
      have ha : s.aborted = false := hattended (by simp only [State.isStarting, hphase])
      rw [ha] at hlate
      refine hb.of_same hsame (fun hd => ?_) (fun ha' _ => ?_) hlate
      · rw [hdone] at hd
        exact nomatch hd
      · rw [haborted, ha] at ha'
        exact nomatch ha'
  | _ =>
    have hstep : step s .call = s := by simp only [step, hphase]
    have hno : s.isStarting = false := by simp only [State.isStarting, hphase]
    rw [hstep]
    refine ⟨fun _ h => ?_, fun _ => hb⟩
    rw [hno] at h
    exact nomatch h

theorem arrive_iff (hb : Bounded s) (answer : Option Bool) :
    Bounded (step s (.arrive answer)) ↔ Attended s (.arrive answer) := by
  have hstay : step s (.arrive answer) = s → s.asks = false →
      (Bounded (step s (.arrive answer)) ↔ Attended s (.arrive answer)) := by
    intro hstep hasks
    rw [hstep]
    refine ⟨fun _ h => ?_, fun _ => hb⟩
    rw [hasks] at h
    exact nomatch h
  cases hphase : s.phase with
  | settled outcome =>
    have hdone : s.isDone = false := by simp only [State.isDone, hphase]
    cases outcome with
    | resolved =>
      have hasks : s.asks = false := by simp only [State.asks, hphase]
      refine ⟨fun _ h => ?_, fun _ => ?_⟩
      · rw [hasks] at h
        exact nomatch h
      · simp only [step, hphase]
        exact hb.ends ⟨rfl, rfl, rfl⟩ rfl rfl
    | failed code =>
      have hasks : s.asks = !code.terminal := by simp only [State.asks, hphase]
      simp only [step, hphase, Attended, hasks]
      cases hcode : code.terminal with
      | true => exact ⟨fun _ h => (nomatch h), fun _ => hb.ends ⟨rfl, rfl, rfl⟩ rfl rfl⟩
      | false =>
        cases answer with
        | none =>
          have hiff : Bounded { s with phase := .asking code } ↔ s.aborted = false :=
            hb.between_iff ⟨rfl, rfl, rfl⟩ hdone rfl rfl rfl
          exact hiff.trans ⟨fun h _ _ => h, fun h => h rfl rfl⟩
        | some should =>
          exact ⟨fun _ _ h => (nomatch h), fun _ => hb.busy ⟨rfl, rfl, rfl⟩ hdone rfl rfl⟩
  | starting raced => exact hstay (by simp only [step, hphase]) (by simp only [State.asks, hphase])
  | pending => exact hstay (by simp only [step, hphase]) (by simp only [State.asks, hphase])
  | asking code => exact hstay (by simp only [step, hphase]) (by simp only [State.asks, hphase])
  | decided code should =>
    exact hstay (by simp only [step, hphase]) (by simp only [State.asks, hphase])
  | waiting due => exact hstay (by simp only [step, hphase]) (by simp only [State.asks, hphase])
  | done outcome => exact hstay (by simp only [step, hphase]) (by simp only [State.asks, hphase])

theorem decide_iff (hb : Bounded s) (random : ℚ) :
    Bounded (step s (.decide random)) ↔ Attended s (.decide random) := by
  by_cases hphase : ∃ code should, s.phase = .decided code should
  · obtain ⟨code, should, hphase⟩ := hphase
    have hdone : s.isDone = false := by simp only [State.isDone, hphase]
    have hretries : s.retries = (should && s.attempt != s.config.attempts) := by
      simp only [State.retries, hphase]
    simp only [step, hphase, Attended]
    by_cases hstop : (!should || s.attempt == s.config.attempts) = true
    · have hno : s.retries = false := by
        rw [hretries, bne, ← Bool.not_not (b := should), ← Bool.not_or, hstop]
        rfl
      rw [if_pos hstop]
      refine ⟨fun _ h => ?_, fun _ => hb.ends ⟨rfl, rfl, rfl⟩ rfl rfl⟩
      rw [hno] at h
      exact nomatch h
    · have hyes : s.retries = true := by
        rw [hretries, bne, ← Bool.not_not (b := should), ← Bool.not_or, Bool.eq_false_iff.mpr hstop]
        rfl
      rw [if_neg hstop]
      generalize calcDelay s.config s.attempt s.decorrelated random = next
      have hiff : Bounded { s with decorrelated := next.2, phase := .waiting (s.now + next.1) } ↔
          s.aborted = false := hb.between_iff ⟨rfl, rfl, rfl⟩ hdone rfl rfl rfl
      exact hiff.trans ⟨fun h _ => h, fun h => h hyes⟩
  · have hstep : step s (.decide random) = s := by
      simp only [step]
      split
      · next code should hs => exact absurd ⟨code, should, hs⟩ hphase
      · rfl
    have hno : s.retries = false := by
      simp only [State.retries]
      split
      · next code should hs => exact absurd ⟨code, should, hs⟩ hphase
      · rfl
    rw [hstep]
    refine ⟨fun _ h => ?_, fun _ => hb⟩
    rw [hno] at h
    exact nomatch h

theorem bounded_step_iff (ht : Timely s) (hb : Bounded s) (e : Event) :
    Bounded (step s e) ↔ Attended s e := by
  have hkept : Bounded (step s e) → Attended s e = True → (Bounded (step s e) ↔ Attended s e) := by
    intro hb' hok
    rw [hok]
    exact ⟨fun _ => trivial, fun _ => hb'⟩
  cases e with
  | advance t => exact advance_iff hb t
  | abort => exact abort_iff hb
  | call => exact call_iff ht hb
  | arrive answer => exact arrive_iff hb answer
  | decide random => exact decide_iff hb random
  | settle outcome =>
    refine hkept ?_ rfl
    simp only [step]
    split
    · next hphase =>
      exact hb.busy ⟨rfl, rfl, rfl⟩ (by simp only [State.isDone, hphase]) rfl rfl
    · exact hb
  | attemptTimer | deadlineTimer =>
    refine hkept ?_ rfl
    simp only [step]
    split
    · next hphase =>
      split_ifs
      · exact hb.busy ⟨rfl, rfl, rfl⟩ (by simp only [State.isDone, hphase]) rfl rfl
      · exact hb
    · exact hb
  | answer should =>
    refine hkept ?_ rfl
    simp only [step]
    split
    · next code hphase =>
      exact hb.busy ⟨rfl, rfl, rfl⟩ (by simp only [State.isDone, hphase]) rfl rfl
    · exact hb
  | wake =>
    refine hkept ?_ rfl
    simp only [step]
    split
    · next due hphase =>
      split_ifs
      · obtain ⟨hsame, -, hlate, hnext⟩ := runAttempt_spec s (s.attempt + 1)
        refine hb.busy hsame (by simp only [State.isDone, hphase]) ?_ hlate
        unfold State.idle
        rcases hnext with ⟨code, hnext⟩ | ⟨hnext, -⟩ <;> rw [hnext]
      · exact hb
    · exact hb

theorem runAttempt_timely (s : State) (attempt : ℕ) : Timely (runAttempt s attempt) := by
  obtain ⟨hsame, -, -, hnext⟩ := runAttempt_spec s attempt
  intro raced hraced
  rw [hsame.passed]
  rcases hnext with ⟨code, hnext⟩ | ⟨-, hpassed⟩
  · rw [hnext] at hraced
    exact nomatch hraced
  · exact hpassed

theorem timely_step (ht : Timely s) (e : Event) : Timely (step s e) := by
  have hmoved : ∀ s' : State, (∀ raced, s'.phase ≠ .starting raced) → Timely s' :=
    fun s' hno raced hraced => absurd hraced (hno raced)
  cases e with
  | advance t =>
    simp only [step]
    split_ifs with hadv
    · refine hmoved _ fun raced hraced => ?_
      have hraced : s.phase = .starting raced := hraced
      unfold State.advances State.idle at hadv
      rw [hraced] at hadv
      exact nomatch hadv
    · exact ht
  | abort =>
    simp only [step]
    split_ifs
    · exact ht
    · split
      · next raced hphase => exact fun _ _ => ht raced hphase
      · exact hmoved _ fun raced hraced => (nomatch hraced)
      · exact ht
  | call =>
    simp only [step]
    split
    · next raced hphase =>
      refine hmoved _ fun raced' hraced => ?_
      cases raced <;> exact nomatch hraced
    · exact ht
  | settle outcome =>
    simp only [step]
    split
    · exact hmoved _ fun raced hraced => (nomatch hraced)
    · exact ht
  | attemptTimer | deadlineTimer =>
    simp only [step]
    split
    · split_ifs
      · exact hmoved _ fun raced hraced => (nomatch hraced)
      · exact ht
    · exact ht
  | arrive answer =>
    simp only [step]
    split
    · exact hmoved _ fun raced hraced => (nomatch hraced)
    · split_ifs
      · exact hmoved _ fun raced hraced => (nomatch hraced)
      · refine hmoved _ fun raced hraced => ?_
        cases answer <;> exact nomatch hraced
    · exact ht
  | answer should =>
    simp only [step]
    split
    · exact hmoved _ fun raced hraced => (nomatch hraced)
    · exact ht
  | decide random =>
    simp only [step]
    split
    · split_ifs
      · exact hmoved _ fun raced hraced => (nomatch hraced)
      · exact hmoved _ fun raced hraced => (nomatch hraced)
    · exact ht
  | wake =>
    simp only [step]
    split
    · split_ifs
      · exact runAttempt_timely s _
      · exact ht
    · exact ht

theorem timeoutOption_ge {value r : Option ℚ} {name : String}
    (h : timeoutOption value name = .ok r) : ∀ t ∈ r, 1 ≤ t := by
  intro t ht
  cases value with
  | none =>
    cases h
    exact nomatch ht
  | some v =>
    obtain ⟨n, hn, rfl⟩ := map_eq_ok.mp h
    cases ht
    exact assertLimitRequired_ge hn le_rfl

theorem resolveRunOptions_totalTimeout {attempts : ℕ} {attemptTimeout totalTimeout : Option ℚ}
    (h : resolveRunOptions attempts attemptTimeout totalTimeout o = .ok c) :
    c.totalTimeout = totalTimeout := by
  obtain ⟨base, -, h⟩ := bind_eq_ok.mp h
  obtain ⟨cap, -, h⟩ := bind_eq_ok.mp h
  simp only at h
  split at h <;> cases h
  rfl

theorem resolve_totalTimeout (h : resolve o = .ok c) :
    ∀ t ∈ c.totalTimeout, 1 ≤ t := by
  obtain ⟨attempts, -, h⟩ := bind_eq_ok.mp h
  obtain ⟨attemptTimeout, -, h⟩ := bind_eq_ok.mp h
  obtain ⟨totalTimeout, htotal, h⟩ := bind_eq_ok.mp h
  obtain ⟨delayMs, -, h⟩ := bind_eq_ok.mp h
  rw [resolveRunOptions_totalTimeout h]
  exact timeoutOption_ge htotal

theorem start_bounded (h : resolve o = .ok c) (now : ℚ)
    (aborted : Bool) : Bounded (start c now aborted) := by
  obtain ⟨hsame, -, hlate, hnext⟩ := runAttempt_spec
    { config := c, startedAt := now, now, aborted, attempt := 0, attemptDue := none
      decorrelated := c.base, phase := .pending, late := 0 } 1
  have hbusy : (start c now aborted).idle = false := by
    unfold State.idle start
    rcases hnext with ⟨code, hnext⟩ | ⟨hnext, -⟩ <;> rw [hnext]
  refine ⟨fun d hd hlt => ?_, fun _ hi => ?_, hlate⟩
  · have hd : d ∈ c.totalTimeout.map (now + ·) := by
      rw [start, hsame.deadlineAt] at hd
      exact hd
    have hlt : d < now := by
      rw [start, hsame.now] at hlt
      exact hlt
    obtain ⟨t, ht, rfl⟩ := Option.map_eq_some_iff.mp hd
    have hpos := resolve_totalTimeout h t ht
    linarith
  · rw [hbusy] at hi
    exact nomatch hi

/-- A run is over by its deadline and after the jobs of an abort, and calls `fn` after neither,
exactly when neither finds it between two attempts, waiting for `retryIf` or for the backoff, and
the signal does not abort between the check of an attempt and its call. -/
theorem bounded_iff {o : Options} {c : Config} (h : resolve o = .ok c) (now : ℚ) (aborted : Bool)
    (es : List Event) :
    Always step Bounded (start c now aborted) es ↔ Meets step Attended (start c now aborted) es :=
  always_iff_meets (fun _ e ht => timely_step ht e) (fun _ e ht hb => bounded_step_iff ht hb e)
    (runAttempt_timely _ 1) (start_bounded h now aborted)

/-- The deadline falls into the second attempt. -/
theorem bounded_timeout : ∃ c,
    resolve { maxAttempts := some 2, totalTimeout := some 50, retryDelay := some 10 } = .ok c ∧
    Always step Bounded (start c 0 false) [.call, .advance 20, .settle (.failed .other),
      .arrive (some true), .decide 0, .advance 30, .wake, .call, .advance 50, .deadlineTimer,
      .arrive none, .advance 60] := by
  have h : resolve { maxAttempts := some 2, totalTimeout := some 50, retryDelay := some 10 } =
      .ok ⟨2, none, some 50, .fixed, 10, 10, false⟩ := by decide +kernel
  exact ⟨_, h, (bounded_iff h 0 false _).mpr (by decide +kernel)⟩

/-- The first attempt fails at once, and the wait of 100 lasts beyond the deadline at 50. -/
theorem wait_outlasts_deadline : ∃ c,
    resolve { maxAttempts := some 2, totalTimeout := some 50, retryDelay := some 100 } = .ok c ∧
    ¬ Always step Bounded (start c 0 false) [.call, .settle (.failed .other), .arrive (some true),
      .decide 0, .advance 60] := by
  have h : resolve { maxAttempts := some 2, totalTimeout := some 50, retryDelay := some 100 } =
      .ok ⟨2, none, some 50, .fixed, 100, 100, false⟩ := by decide +kernel
  refine ⟨_, h, fun hbounded => ?_⟩
  have hover := hbounded.last.deadline 50 (by decide +kernel) (by decide +kernel)
  revert hover
  decide +kernel

end PerformanceHelpers.PowerDeadline
