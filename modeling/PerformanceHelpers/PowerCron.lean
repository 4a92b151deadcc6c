import Mathlib.Data.Rat.Floor
import PerformanceHelpers.Run

/- `PowerCron` (`src/helpers/powerCron.js`).

   Times are exact numbers of an ordered field. A clock reading, a draw of `Math.random` and whether
   the task returns a promise are arguments of the event that asks for them; the task and the hooks
   do not call the cron. A run of the task is recorded with the fields `onFire` reports, in `cadence`
   when the timer made it and in `outOfBand` otherwise.

   A firing that finds `missedPeriods` whole intervals behind the target should run the target and
   the periods after it. The replays start from the target, and the run after them is aimed at the
   target again, so the target is run twice and the last period that elapsed is never run. A run of
   the schedule is therefore right exactly when every firing comes within one interval of its
   target (`catchUp_iff`). -/
namespace PerformanceHelpers.PowerCron

/-- The longest delay of a timer, as a numeral of any ordered field. -/
instance instAtLeastTwoDelay : Nat.AtLeastTwo 2147483647 := ⟨by decide⟩

inductive CatchUp where
  | skip
  | catchUp
  | runOnce
  deriving DecidableEq

/-- The options read by the schedule; a `maxCatchUp` of `Infinity` is `none`. -/
structure Config (K : Type) where
  intervalMs : K
  maxCatchUp : Option K
  overlap : Bool
  catchUp : CatchUp
  jitter : K
  runOnStart : Bool
  deriving DecidableEq

/-- A run of the task, as `onFire` reports it. -/
structure Fire (K : Type) where
  scheduledFor : K
  ranAt : K
  driftMs : K
  missed : K
  deriving DecidableEq

/-- The fields of the cron. `anchor` is the reading of the last `start`, `cadence` are the runs the
timer made since then and `seen` is the reading of the last firing. -/
structure Cron (K : Type) where
  config : Config K
  timer : Option K
  running : Bool
  nextAt : K
  fireCount : K
  totalDriftMs : K
  runningTask : Bool
  anchor : K
  seen : K
  cadence : List (Fire K)
  outOfBand : List (Fire K)
  deriving DecidableEq

/-- What one run of the task meets: the reading `_run` takes, and whether the task returns a
promise. -/
structure Outcome (K : Type) where
  ranAt : K
  async : Bool
  deriving DecidableEq

section
variable {K : Type} [Field K] [LinearOrder K] [IsStrictOrderedRing K] [FloorRing K]

def new (config : Config K) : Cron K where
  config := config
  timer := none
  running := false
  nextAt := 0
  fireCount := 0
  totalDriftMs := 0
  runningTask := false
  anchor := 0
  seen := 0
  cadence := []
  outOfBand := []

/-- What `_run` reports. -/
def fireOf (scheduledFor missed ranAt : K) : Fire K :=
  ⟨scheduledFor, ranAt, max 0 (ranAt - scheduledFor), missed⟩

/-- `_run`, for the timer. A promise keeps `_runningTask` until it settles. -/
def runTask (c : Cron K) (scheduledFor missed : K) (o : Outcome K) : Cron K :=
  { c with
    totalDriftMs := c.totalDriftMs + max 0 (o.ranAt - scheduledFor)
    runningTask := o.async
    cadence := c.cadence ++ [fireOf scheduledFor missed o.ranAt] }

/-- `_run` without arguments: it is aimed at the reading it takes first. -/
def runNowTask (c : Cron K) (now : K) (o : Outcome K) : Cron K :=
  { c with
    totalDriftMs := c.totalDriftMs + max 0 (o.ranAt - now)
    runningTask := o.async
    outOfBand := c.outOfBand ++ [fireOf now 0 o.ranAt] }

def jitterDelay (c : Cron K) (random : K) : K :=
  if 0 < c.config.jitter then random * c.config.jitter * c.config.intervalMs else 0

/-- `_arm`: the timer is set for its reading and the delay. -/
def arm (c : Cron K) (now random : K) : Cron K :=
  if c.running = false then c
  else { c with timer := some (now + min 2147483647 (max 0 (c.nextAt - now) + jitterDelay c random)) }

/-- `start`, with the readings it takes for the anchor, for the timer and for `runOnStart`. -/
def start (c : Cron K) (now armNow random runNow : K) (o : Outcome K) : Cron K :=
  if c.running = true then c
  else
    let c₁ := arm { c with
      running := true, nextAt := now + c.config.intervalMs, anchor := now, seen := now, cadence := [] }
      armNow random
    if c.config.runOnStart = true then runNowTask { c₁ with fireCount := c₁.fireCount + 1 } runNow o
    else c₁

def stop (c : Cron K) : Cron K := { c with running := false, runningTask := false, timer := none }

def runNow (c : Cron K) (now : K) (o : Outcome K) : Cron K :=
  runNowTask { c with fireCount := c.fireCount + 1 } now o

def missedPeriods (c : Cron K) (now : K) : ℕ := ⌊(now - c.nextAt) / c.config.intervalMs⌋₊

/-- The `i`-th replay of a firing. -/
def replay (target : K) (outcomes : ℕ → Outcome K) (c : Cron K) (i : ℕ) : Cron K :=
  runTask { c with fireCount := c.fireCount + 1 } (target + i * c.config.intervalMs) 1 (outcomes i)

/-- `_onTimer`, once it is known to run the task. -/
def handle (c : Cron K) (now : K) (outcomes : ℕ → Outcome K) (armNow random : K) : Cron K :=
  let target := c.nextAt
  let missed : K := missedPeriods c now
  let replayed : K := match c.config.catchUp with
    | .catchUp => match c.config.maxCatchUp with
      | none => missed
      | some cap => min missed cap
    | .skip | .runOnce => 0
  let dropped := missed - replayed
  let c₁ := match c.config.catchUp with
    | .catchUp => (List.range ⌈replayed⌉₊).foldl (replay target outcomes) c
    | .runOnce => if 0 < missed then { c with fireCount := c.fireCount + missed } else c
    | .skip => c
  let c₂ := runTask { c₁ with fireCount := c₁.fireCount + 1 } target
    (if c.config.catchUp = .catchUp then dropped else missed) (outcomes ⌈replayed⌉₊)
  arm { c₂ with nextAt := target + (missed + 1) * c.config.intervalMs } armNow random

/-- `_onTimer`, of a timer that is set. -/
def onTimer (c : Cron K) (now : K) (outcomes : ℕ → Outcome K) (armNow random : K) : Cron K :=
  let c := { c with timer := none, seen := now }
  if c.running = false then c
  else if c.config.overlap = false ∧ c.runningTask = true then
    arm { c with nextAt := c.nextAt + (missedPeriods c now + 1) * c.config.intervalMs } armNow random
  else handle c now outcomes armNow random

end

/-- A call, a firing of the timer, or a promise of the task that settles. The readings of a firing
are the one `_onTimer` takes, those of the runs, and that of `_arm`. -/
inductive Event (K : Type) where
  | start (now armNow random runNow : K) (outcome : Outcome K)
  | stop
  | runNow (now : K) (outcome : Outcome K)
  | fire (now : K) (outcomes : ℕ → Outcome K) (armNow random : K)
  | settle

section
variable {K : Type} [Field K] [LinearOrder K] [IsStrictOrderedRing K] [FloorRing K]

def step (c : Cron K) : Event K → Cron K
  | .start now armNow random runNow o => start c now armNow random runNow o
  | .stop => stop c
  | .runNow now o => runNow c now o
  | .fire now outcomes armNow random =>
    if c.timer.isSome = true then onTimer c now outcomes armNow random else c
  | .settle => { c with runningTask := false }

/-- The first `n` periods after the anchor. -/
def periods (anchor k : K) (n : ℕ) : List K := (List.range n).map fun i : ℕ => anchor + (i + 1) * k

/-- The periods that had elapsed when the timer last fired. -/
def elapsed (c : Cron K) : ℕ := ⌊(c.seen - c.anchor) / c.config.intervalMs⌋₊

/-- The timer has run every period that elapsed since the cron was started, each once and in
order. -/
def RunsEveryPeriod (c : Cron K) : Prop :=
  c.cadence.map Fire.scheduledFor = periods c.anchor c.config.intervalMs (elapsed c)

/-- A firing comes within one interval after its target. -/
def FiresInTime (c : Cron K) : Event K → Prop
  | .fire now _ _ _ => c.timer.isSome = true → c.nextAt ≤ now ∧ now < c.nextAt + c.config.intervalMs
  | _ => True

/-! ## What a firing emits -/

/-- What the claims about catch-up fix: every missed period is replayed, and tasks may overlap. -/
structure Replays (config : Config K) : Prop where
  interval : 10 ≤ config.intervalMs
  catchUp : config.catchUp = .catchUp
  maxCatchUp : config.maxCatchUp = none
  overlap : config.overlap = true

variable {c : Cron K}

section
omit [IsStrictOrderedRing K] [FloorRing K]

section
variable (now random : K)

@[simp] theorem arm_cadence : (arm c now random).cadence = c.cadence := by
  unfold arm
  split <;> rfl

@[simp] theorem arm_config : (arm c now random).config = c.config := by
  unfold arm
  split <;> rfl

@[simp] theorem arm_nextAt : (arm c now random).nextAt = c.nextAt := by
  unfold arm
  split <;> rfl

@[simp] theorem arm_anchor : (arm c now random).anchor = c.anchor := by
  unfold arm
  split <;> rfl

@[simp] theorem arm_seen : (arm c now random).seen = c.seen := by
  unfold arm
  split <;> rfl

@[simp] theorem arm_running : (arm c now random).running = c.running := by
  unfold arm
  split <;> rfl

end

end

structure Replayed (target : K) (n : ℕ) (c c' : Cron K) : Prop where
  config : c'.config = c.config
  running : c'.running = c.running
  nextAt : c'.nextAt = c.nextAt
  anchor : c'.anchor = c.anchor
  seen : c'.seen = c.seen
  cadence : c'.cadence.map Fire.scheduledFor = c.cadence.map Fire.scheduledFor ++
    (List.range n).map fun i : ℕ => target + i * c.config.intervalMs

omit [IsStrictOrderedRing K] [FloorRing K] in
theorem replays (target : K) (outcomes : ℕ → Outcome K) (n : ℕ) :
    Replayed target n c ((List.range n).foldl (replay target outcomes) c) := by
  induction n with
  | zero => exact ⟨rfl, rfl, rfl, rfl, rfl, by simp⟩
  | succ n ih =>
    rw [List.range_succ, List.foldl_append, List.foldl_cons, List.foldl_nil]
    generalize (List.range n).foldl (replay target outcomes) c = c' at ih
    have hone : (replay target outcomes c' n).cadence = c'.cadence ++
        [fireOf (target + n * c'.config.intervalMs) 1 (outcomes n).ranAt] := rfl
    refine ⟨ih.config, ih.running, ih.nextAt, ih.anchor, ih.seen, ?_⟩
    rw [hone, List.map_append, ih.cadence, ih.config, List.range_succ, List.map_append, List.append_assoc]
    rfl

/-- What a firing leaves behind: the periods from the target on that it replays, then the target,
and a next target past them all. -/
structure Handled (c : Cron K) (now : K) (c' : Cron K) : Prop where
  config : c'.config = c.config
  running : c'.running = true
  nextAt : c'.nextAt = c.nextAt + (missedPeriods c now + 1) * c.config.intervalMs
  anchor : c'.anchor = c.anchor
  seen : c'.seen = now
  cadence : c'.cadence.map Fire.scheduledFor = c.cadence.map Fire.scheduledFor ++
    ((List.range (missedPeriods c now)).map fun i : ℕ => c.nextAt + i * c.config.intervalMs) ++ [c.nextAt]

theorem onTimer_handled (hconfig : Replays c.config) (hrunning : c.running = true) (now : K)
    (outcomes : ℕ → Outcome K) (armNow random : K) :
    Handled c now (onTimer c now outcomes armNow random) := by
  have heq : onTimer c now outcomes armNow random =
      handle { c with timer := none, seen := now } now outcomes armNow random := by
    unfold onTimer
    dsimp only
    rw [hrunning, if_neg (by simp), if_neg (by simp [hconfig.overlap])]
  have hceil : ⌈((missedPeriods c now : ℕ) : K)⌉₊ = missedPeriods c now := Nat.ceil_natCast _
  have hmissed : missedPeriods { c with timer := none, seen := now } now = missedPeriods c now := rfl
  have hrep := replays (c := { c with timer := none, seen := now }) c.nextAt outcomes (missedPeriods c now)
  rw [heq]
  unfold handle
  dsimp only
  rw [hmissed, hconfig.catchUp, hconfig.maxCatchUp]
  dsimp only
  rw [hceil]
  refine ⟨?_, ?_, ?_, ?_, ?_, ?_⟩
  · rw [arm_config]
    exact hrep.config
  · rw [arm_running]
    exact hrep.running.trans hrunning
  · rw [arm_nextAt]
  · rw [arm_anchor]
    exact hrep.anchor
  · rw [arm_seen]
    exact hrep.seen
  · rw [arm_cadence]
    unfold runTask
    dsimp only
    rw [List.map_append, hrep.cadence]
    rfl

/-! ## Runs of the schedule -/

section
omit [LinearOrder K] [IsStrictOrderedRing K] [FloorRing K]

theorem periods_succ (anchor k : K) (n : ℕ) :
    periods anchor k (n + 1) = periods anchor k n ++ [anchor + (n + 1) * k] := by
  unfold periods
  rw [List.range_succ, List.map_append]
  rfl

theorem periods_length (anchor k : K) (n : ℕ) : (periods anchor k n).length = n := by
  unfold periods
  rw [List.length_map, List.length_range]

end

/-- While the cron runs, its target comes after as many periods as the timer made runs, and a timer
is only set while it runs. -/
structure Aimed (c : Cron K) : Prop where
  config : Replays c.config
  nextAt : c.running = true → c.nextAt = c.anchor + (c.cadence.length + 1) * c.config.intervalMs
  timer : c.timer.isSome = true → c.running = true

section
omit [IsStrictOrderedRing K]

theorem Handled.length {c' : Cron K} {now : K} (h : Handled c now c') :
    c'.cadence.length = c.cadence.length + missedPeriods c now + 1 := by
  have hlen := congrArg List.length h.cadence
  rw [List.length_map, List.length_append, List.length_append, List.length_map, List.length_map,
    List.length_range] at hlen
  simpa using hlen

theorem Handled.aimed {c' : Cron K} {now : K} (h : Handled c now c') (ha : Aimed c)
    (hrunning : c.running = true) : Aimed c' := by
  refine ⟨h.config ▸ ha.config, fun _ => ?_, fun _ => h.running⟩
  rw [h.nextAt, h.anchor, h.config, h.length, ha.nextAt hrunning]
  push_cast
  ring

end

omit [IsStrictOrderedRing K] [FloorRing K] in
theorem start_aimed (h : Aimed c) (now armNow random runNow : K) (o : Outcome K) :
    Aimed (start c now armNow random runNow o) := by
  unfold start
  split
  · exact h
  · have hone : now + c.config.intervalMs = now + ((0 : ℕ) + 1) * c.config.intervalMs := by
      push_cast
      ring
    dsimp only
    split
    · refine ⟨?_, fun _ => ?_, fun _ => ?_⟩
      · exact (arm_config armNow random (c := { c with
          running := true, nextAt := now + c.config.intervalMs, anchor := now, seen := now,
          cadence := [] })) ▸ h.config
      · unfold runNowTask
        dsimp only
        rw [arm_nextAt, arm_anchor, arm_cadence, arm_config]
        exact hone
      · unfold runNowTask
        dsimp only
        rw [arm_running]
    · refine ⟨?_, fun _ => ?_, fun _ => ?_⟩
      · rw [arm_config]
        exact h.config
      · rw [arm_nextAt, arm_anchor, arm_cadence, arm_config]
        exact hone
      · rw [arm_running]

section
omit [IsStrictOrderedRing K]

theorem step_fire (ht : c.timer.isSome = true) {now : K} {outcomes : ℕ → Outcome K} {armNow random : K} :
    step c (.fire now outcomes armNow random) = onTimer c now outcomes armNow random := if_pos ht

theorem step_fire_unset (ht : ¬c.timer.isSome = true) {now : K} {outcomes : ℕ → Outcome K}
    {armNow random : K} : step c (.fire now outcomes armNow random) = c := if_neg ht

end

theorem step_aimed (h : Aimed c) (e : Event K) : Aimed (step c e) := by
  cases e with
  | start now armNow random runNow o => exact start_aimed h now armNow random runNow o
  | stop => exact ⟨h.config, fun hr => Bool.noConfusion hr, fun ht => Bool.noConfusion ht⟩
  | runNow now o => exact ⟨h.config, h.nextAt, h.timer⟩
  | fire now outcomes armNow random =>
    by_cases ht : c.timer.isSome = true
    · rw [step_fire ht]
      exact (onTimer_handled h.config (h.timer ht) now outcomes armNow random).aimed h (h.timer ht)
    · rw [step_fire_unset ht]
      exact h
  | settle => exact ⟨h.config, h.nextAt, h.timer⟩

/-- The whole intervals from one number to another. -/
theorem floor_div_eq_iff {x k : K} (hk : 0 < k) (n : ℕ) (hx : 0 ≤ x) :
    ⌊x / k⌋₊ = n ↔ n * k ≤ x ∧ x < (n + 1) * k := by
  rw [Nat.floor_eq_iff (div_nonneg hx hk.le), le_div_iff₀ hk, div_lt_iff₀ hk]

theorem Replays.pos {config : Config K} (h : Replays config) : 0 < config.intervalMs :=
  lt_of_lt_of_le (by norm_num) h.interval

theorem missedPeriods_eq_zero_iff (hconfig : Replays c.config) (now : K) :
    missedPeriods c now = 0 ↔ now < c.nextAt + c.config.intervalMs := by
  unfold missedPeriods
  rw [Nat.floor_eq_zero, div_lt_one hconfig.pos, sub_lt_iff_lt_add']

/-- A firing keeps the schedule right exactly when it comes in time. -/
theorem fire_iff (ha : Aimed c) (hrunning : c.running = true) (hright : RunsEveryPeriod c)
    {now : K} {c' : Cron K} (h : Handled c now c') :
    RunsEveryPeriod c' ↔ c.nextAt ≤ now ∧ now < c.nextAt + c.config.intervalMs := by
  have hk := ha.config.pos
  have htarget := ha.nextAt hrunning
  have hlen : c.cadence.length = elapsed c := by
    have hmap := congrArg List.length hright
    rwa [List.length_map, periods_length] at hmap
  have hn : (c.cadence.map Fire.scheduledFor) = periods c.anchor c.config.intervalMs c.cadence.length := by
    rw [hlen]
    exact hright
  constructor
  · intro hright'
    have hmap : c'.cadence.map Fire.scheduledFor = periods c.anchor c.config.intervalMs c'.cadence.length := by
      have hlen' : c'.cadence.length = elapsed c' := by
        have hmap := congrArg List.length hright'
        rwa [List.length_map, periods_length] at hmap
      rw [hlen', ← h.anchor, ← h.config]
      exact hright'
    -- the last run is aimed at the target, so that no replay came before it
    have hlast : c.nextAt = c.anchor + ((c.cadence.length + missedPeriods c now : ℕ) + 1) * c.config.intervalMs := by
      rw [h.cadence, h.length, periods_succ] at hmap
      exact (List.append_singleton_inj.mp hmap).2
    have hmissed : missedPeriods c now = 0 := by
      rw [htarget] at hlast
      push_cast at hlast
      have hzero : (missedPeriods c now : K) * c.config.intervalMs = 0 := by linarith
      rcases mul_eq_zero.mp hzero with h0 | h0
      · exact_mod_cast h0
      · exact absurd h0 hk.ne'
    have hcount : c'.cadence.length = elapsed c' := by
      have hmap := congrArg List.length hright'
      rwa [List.length_map, periods_length] at hmap
    rw [h.length, hmissed] at hcount
    refine ⟨?_, (missedPeriods_eq_zero_iff ha.config now).mp hmissed⟩
    unfold elapsed at hcount
    rw [h.seen, h.anchor, h.config] at hcount
    have hpos : 0 < ⌊(now - c.anchor) / c.config.intervalMs⌋₊ := by omega
    have hle : ((c.cadence.length + 0 + 1 : ℕ) : K) ≤ (now - c.anchor) / c.config.intervalMs := by
      rw [hcount]
      exact Nat.floor_le (le_trans zero_le_one (Nat.floor_pos.mp hpos))
    rw [le_div_iff₀ hk] at hle
    push_cast at hle
    rw [htarget]
    linarith
  · rintro ⟨hle, hlt⟩
    have hmissed := (missedPeriods_eq_zero_iff ha.config now).mpr hlt
    have helapsed : elapsed c' = c.cadence.length + 1 := by
      unfold elapsed
      rw [h.seen, h.anchor, h.config]
      rw [htarget] at hle hlt
      have hnonneg : (0 : K) ≤ (c.cadence.length + 1) * c.config.intervalMs := by positivity
      rw [floor_div_eq_iff hk _ (by linarith)]
      push_cast
      constructor <;> linarith
    unfold RunsEveryPeriod
    rw [helapsed, h.anchor, h.config, periods_succ, h.cadence, hmissed, hn, htarget]
    simp

theorem start_right (hright : RunsEveryPeriod c) (now armNow random runNow : K) (o : Outcome K) :
    RunsEveryPeriod (start c now armNow random runNow o) := by
  unfold start
  split
  · exact hright
  · have hnone : ∀ c' : Cron K, c'.cadence = [] → c'.anchor = now → c'.seen = now → RunsEveryPeriod c' := by
      intro c' hcadence hanchor hseen
      unfold RunsEveryPeriod elapsed
      rw [hcadence, hanchor, hseen, sub_self, zero_div, Nat.floor_zero]
      rfl
    dsimp only
    split
    · apply hnone
      · exact arm_cadence _ _
      · exact arm_anchor _ _
      · exact arm_seen _ _
    · apply hnone
      · rw [arm_cadence]
      · rw [arm_anchor]
      · rw [arm_seen]

theorem step_right_iff (ha : Aimed c) (hright : RunsEveryPeriod c) (e : Event K) :
    RunsEveryPeriod (step c e) ↔ FiresInTime c e := by
  cases e with
  | start now armNow random runNow o =>
    exact iff_of_true (start_right hright now armNow random runNow o) trivial
  | stop | runNow now o => exact iff_of_true hright trivial
  | fire now outcomes armNow random =>
    unfold FiresInTime
    by_cases ht : c.timer.isSome = true
    · rw [step_fire ht, fire_iff ha (ha.timer ht) hright
        (onTimer_handled ha.config (ha.timer ht) now outcomes armNow random)]
      exact ⟨fun h _ => h, fun h => h ht⟩
    · rw [step_fire_unset ht]
      exact iff_of_true hright fun h => absurd h ht
  | settle => exact iff_of_true hright trivial

/-- The timer of a cron that replays every missed period, and whose tasks may overlap, has run every
period that elapsed, each once and in order, in every state of a run, exactly when every firing
comes within one interval after its target. -/
theorem catchUp_iff {config : Config K} (hconfig : Replays config) (es : List (Event K)) :
    Always step RunsEveryPeriod (new config) es ↔ Meets step FiresInTime (new config) es := by
  refine always_iff_meets (fun _ e h => step_aimed h e) (fun _ e ha hright => step_right_iff ha hright e)
    ?_ ?_
  · exact ⟨hconfig, fun hr => Bool.noConfusion hr, fun ht => Bool.noConfusion ht⟩
  · unfold RunsEveryPeriod elapsed new
    dsimp only
    rw [sub_self, zero_div, Nat.floor_zero]
    rfl

end

/-- The options of a cron that fires every ten milliseconds. -/
def everyTen : Config ℚ := ⟨10, none, true, .catchUp, 0, false⟩

theorem everyTen_replays : Replays everyTen := ⟨by decide +kernel, rfl, rfl, rfl⟩

/-- Two firings that come in time. -/
theorem catchUp_iff_two :
    let es : List (Event ℚ) := [.start 0 0 0 0 ⟨0, false⟩, .fire 11 (fun _ => ⟨11, false⟩) 11 0,
      .fire 29 (fun _ => ⟨29, false⟩) 29 0]
    Always step RunsEveryPeriod (new everyTen) es ↔ Meets step FiresInTime (new everyTen) es :=
  catchUp_iff everyTen_replays _

/-- A firing that comes after two periods runs the first of them twice, and not the second. -/
theorem catchUp_repeats_target :
    let c := run step (new everyTen) [.start 0 0 0 0 ⟨0, false⟩, .fire 25 (fun _ => ⟨25, false⟩) 25 0]
    c.cadence.map Fire.scheduledFor = [10, 10] ∧
      periods c.anchor c.config.intervalMs (elapsed c) = [10, 20] ∧ c.nextAt = 30 := by
  decide +kernel

end PerformanceHelpers.PowerCron
