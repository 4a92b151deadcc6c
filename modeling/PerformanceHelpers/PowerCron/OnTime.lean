import PerformanceHelpers.PowerCron.Nested

/- No run before its time (`src/helpers/powerCron.js`).

   `_arm` sets one timer, for at most 2^31 - 1 ms, and `_onTimer` takes every firing for that of
   the target: it does not look whether the target has come. So an interval that does not fit the
   delay is cut short, and its task runs after 2^31 - 1 ms.

   What is proved:
     1. `Timely.step` — with an interval that fits, a clock that does not go back and a host that
        fires no timer before it is due, every firing finds its target reached, and so does every
        replay.
     2. `never_early_iff` — so no run of the timer is early, in all such runs, exactly when the
        interval fits. -/
namespace PerformanceHelpers.PowerCron

namespace Machine

section
variable {K : Type} [Field K] [LinearOrder K] [IsStrictOrderedRing K] [FloorRing K]

/-- No run of the timer began before it was scheduled. -/
def OnTime (s : Machine K) : Prop := ∀ f ∈ s.invoked, f.scheduledFor ≤ f.ranAt

/-- The draws of `Math.random`. -/
def draws : Move K → List K
  | .start _ _ random _ _ | .fire _ _ _ random | .returns _ _ random => [random]
  | .stop | .runNow _ _ | .settle => []

def Due (s : Machine K) : Move K → Prop
  | .fire id now _ _ => ∀ t ∈ s.armed, t.id = id → t.due ≤ now
  | _ => True

/-- A clock that does not go back, a host whose timers are not early, and a job that its task does
not restart. -/
structure Honest (s : Machine K) (m : Move K) : Prop where
  forward : (s.clock :: m.readings).Pairwise (· ≤ ·)
  draws : ∀ r ∈ draws m, 0 ≤ r
  due : Due s m
  unrestarted : Unrestarted s m

/-- What the constructor checks. -/
structure Checked (config : Config K) : Prop where
  interval : 10 ≤ config.intervalMs
  maxCatchUp : ∀ cap ∈ config.maxCatchUp, 0 ≤ cap
  jitter : 0 ≤ config.jitter

/-- The timers are due at their targets or after, and a firing has reached all it is to run. -/
structure Timely (s : Machine K) : Prop where
  chained : Chained s
  due : ∀ t ∈ s.armed, t.target ≤ t.due
  reached : ∀ target missed replayed turn, Frame.firing target missed replayed turn ∈ s.stack →
    target + missed * s.config.intervalMs ≤ s.clock ∧ ⌈replayed⌉₊ ≤ missed
  onTime : OnTime s

variable {s : Machine K}

variable {reading target now random : K} {config : Config K}

omit [FloorRing K] in
theorem Checked.pos (h : Checked config) : 0 < config.intervalMs :=
  lt_of_lt_of_le (by norm_num) h.interval

omit [FloorRing K] in
theorem jitterDelay_nonneg (h : Checked config) (hrandom : 0 ≤ random) :
    0 ≤ jitterDelay config random := by
  unfold jitterDelay
  split
  · exact mul_nonneg (mul_nonneg hrandom h.jitter) h.pos.le
  · exact le_rfl

/-! ## Arming -/

omit [FloorRing K] in
/-- A target within one delay is not cut short. -/
theorem le_due (h : Checked config) (hfits : config.intervalMs ≤ 2147483647)
    (hrandom : 0 ≤ random) (hnear : target ≤ now + config.intervalMs) :
    target ≤ now + min 2147483647 (max 0 (target - now) + jitterDelay config random) := by
  have hjitter := jitterDelay_nonneg h hrandom
  have hspan : target - now ≤ max 0 (target - now) := le_max_right _ _
  have hdelay : target - now ≤ min 2147483647 (max 0 (target - now) + jitterDelay config random) := by
    apply le_min
    · linarith
    · linarith
  linarith

omit [FloorRing K] in
theorem arm_due (h : Checked s.config) (hfits : s.config.intervalMs ≤ 2147483647)
    (hrandom : 0 ≤ random) (hnear : s.nextAt ≤ now + s.config.intervalMs) (hdue : ∀ t ∈ s.armed, t.target ≤ t.due) :
    ∀ t ∈ (arm s now random).armed, t.target ≤ t.due := by
  unfold arm
  split
  · exact hdue
  · intro t ht
    rcases List.mem_append.mp ht with ht | ht
    · exact hdue t ht
    · obtain rfl := List.mem_singleton.mp ht
      exact le_due h hfits hrandom hnear

omit [IsStrictOrderedRing K] [FloorRing K] in
theorem arm_rest (s : Machine K) (now random : K) : (arm s now random).stack = s.stack ∧
    (arm s now random).invoked = s.invoked ∧ (arm s now random).config = s.config := by
  unfold arm
  split <;> exact ⟨rfl, rfl, rfl⟩

/-! ## Runs of a firing -/

/-- No replay is aimed later than the last period that was missed. -/
theorem turnOf_le (h : Checked config) {replayed : K} {missed : ℕ}
    (hreplayed : ⌈replayed⌉₊ ≤ missed) (turn : ℕ) :
    (turnOf config target missed replayed turn).1 ≤ target + missed * config.intervalMs := by
  unfold turnOf
  split
  · next hturn =>
    have hcast : (turn : K) ≤ missed := by exact_mod_cast (hturn.trans_le hreplayed).le
    have hmul := mul_le_mul_of_nonneg_right hcast h.pos.le
    dsimp only
    linarith
  · have hnonneg : 0 ≤ (missed : K) * config.intervalMs := mul_nonneg missed.cast_nonneg h.pos.le
    dsimp only
    linarith

theorem ceil_replayedOf_le (config : Config K) (missed : ℕ) : ⌈replayedOf config missed⌉₊ ≤ missed := by
  apply Nat.ceil_le.mpr
  unfold replayedOf
  split
  · cases config.maxCatchUp with
    | none => exact le_rfl
    | some cap => exact min_le_left _ _
  · exact missed.cast_nonneg
  · exact missed.cast_nonneg

/-- The periods a firing finds missed have elapsed. -/
theorem missed_reached (h : Checked config) (hreached : target ≤ now) :
    target + ⌊(now - target) / config.intervalMs⌋₊ * config.intervalMs ≤ now := by
  have hfloor := Nat.floor_le (div_nonneg (sub_nonneg.mpr hreached) h.pos.le)
  rw [le_div_iff₀ h.pos] at hfloor
  linarith

/-! ## One move -/

omit [IsStrictOrderedRing K] in
theorem Timely.new (config : Config K) (clock : K) : Timely (Machine.new config clock) where
  chained := Chained.new config clock
  due _ ht := absurd ht List.not_mem_nil
  reached _ _ _ _ hmem := absurd hmem List.not_mem_nil
  onTime _ hf := absurd hf List.not_mem_nil

omit [IsStrictOrderedRing K] [FloorRing K] in
theorem start_rest (s : Machine K) (now armNow random aimedAt ranAt : K) :
    (start s now armNow random aimedAt ranAt).invoked = s.invoked ∧
      (start s now armNow random aimedAt ranAt).config = s.config ∧
      ∀ target missed replayed turn,
        Frame.firing target missed replayed turn ∈ (start s now armNow random aimedAt ranAt).stack →
          Frame.firing target missed replayed turn ∈ s.stack := by
  unfold start
  split
  · exact ⟨rfl, rfl, fun _ _ _ _ h => h⟩
  · have hrest := arm_rest { s with running := true, nextAt := now + s.config.intervalMs, anchor := now } armNow random
    dsimp only
    split
    · refine ⟨hrest.2.1, hrest.2.2, fun target missed replayed turn hmem => ?_⟩
      rcases List.mem_cons.mp hmem with heq | hmem
      · cases heq
      · exact hrest.1 ▸ hmem
    · exact ⟨hrest.2.1, hrest.2.2, fun target missed replayed turn hmem => hrest.1 ▸ hmem⟩

omit [FloorRing K] in
theorem start_due (h : Checked s.config) (hfits : s.config.intervalMs ≤ 2147483647) {armNow aimedAt ranAt : K}
    (hrandom : 0 ≤ random) (hreadings : now ≤ armNow) (hdue : ∀ t ∈ s.armed, t.target ≤ t.due) :
    ∀ t ∈ (start s now armNow random aimedAt ranAt).armed, t.target ≤ t.due := by
  unfold start
  split
  · exact hdue
  · have harmed := arm_due (s := { s with running := true, nextAt := now + s.config.intervalMs, anchor := now })
      h hfits hrandom (show now + s.config.intervalMs ≤ armNow + s.config.intervalMs by linarith) hdue
    dsimp only
    split
    · exact harmed
    · exact harmed

/-- What a move leaves, at its last reading, beside the chain. -/
structure Reached (config : Config K) (s : Machine K) (reading : K) : Prop where
  due : ∀ t ∈ s.armed, t.target ≤ t.due
  reached : ∀ target missed replayed turn, Frame.firing target missed replayed turn ∈ s.stack →
    target + missed * config.intervalMs ≤ reading ∧ ⌈replayed⌉₊ ≤ missed
  onTime : OnTime s

omit [IsStrictOrderedRing K] in
/-- A run of a firing, once all it may be aimed at has been reached. -/
theorem runTurn_onTime (honTime : OnTime s) {replayed : K} {missed turn : ℕ}
    (haim : (turnOf s.config target missed replayed turn).1 ≤ reading) :
    OnTime (runTurn s target missed replayed turn reading) := by
  intro f hf
  have hf : f ∈ s.invoked ++ [fireOf (turnOf s.config target missed replayed turn).1
    (turnOf s.config target missed replayed turn).2 reading] := hf
  rcases List.mem_append.mp hf with hf | hf
  · exact honTime f hf
  · rw [List.mem_singleton.mp hf]
    exact haim

theorem onTimer_reached (h : Checked s.config) (hfits : s.config.intervalMs ≤ 2147483647) (harmed : s.armed = [])
    (hstack : s.stack = []) (honTime : OnTime s) (htarget : s.nextAt ≤ now)
    (hreading : now ≤ reading) (hrandom : 0 ≤ random) :
    Reached s.config (onTimer s now reading random) reading := by
  have hidle : ∀ t ∈ s.armed, t.target ≤ t.due := by
    rw [harmed]
    exact fun t ht => absurd ht List.not_mem_nil
  have hempty : ∀ target missed replayed turn, Frame.firing target missed replayed turn ∈ s.stack →
      target + missed * s.config.intervalMs ≤ reading ∧ ⌈replayed⌉₊ ≤ missed := by
    rw [hstack]
    exact fun _ _ _ _ hmem => absurd hmem List.not_mem_nil
  have hmissed := missed_reached h htarget
  unfold onTimer
  split
  · exact ⟨hidle, hempty, honTime⟩
  · dsimp only
    generalize ⌊(now - s.nextAt) / s.config.intervalMs⌋₊ = missed at hmissed
    split
    · -- the tick is dropped, and the next target is within an interval
      have hrest := arm_rest { s with nextAt := s.nextAt + (missed + 1) * s.config.intervalMs } reading random
      refine ⟨?_, ?_, ?_⟩
      · refine arm_due (s := { s with nextAt := s.nextAt + (missed + 1) * s.config.intervalMs })
          h hfits hrandom ?_ hidle
        dsimp only
        linarith
      · rw [hrest.1]
        exact hempty
      · intro f hf
        rw [hrest.2.1] at hf
        exact honTime f hf
    · have hceil := ceil_replayedOf_le s.config missed
      refine ⟨hidle, fun target missed' replayed turn hmem => ?_, ?_⟩
      · have hmem : Frame.firing target missed' replayed turn ∈ _ :: s.stack := hmem
        rw [hstack, List.mem_singleton] at hmem
        injection hmem with htarget' hmissed' hreplayed'
        rw [htarget', hmissed', hreplayed']
        exact ⟨hmissed.trans hreading, hceil⟩
      · apply runTurn_onTime
        · exact honTime
        · exact ((turnOf_le h hceil 0).trans hmissed).trans hreading

theorem returns_reached (h : Checked s.config) (hfits : s.config.intervalMs ≤ 2147483647) (hs : Timely s)
    (hreading : s.clock ≤ reading) (hrandom : 0 ≤ random) (async : Bool) :
    Reached s.config (returns s async reading random) reading := by
  have hkeep : ∀ {stack : List (Frame K)}, (∀ f ∈ stack, f ∈ s.stack) →
      ∀ target missed replayed turn, Frame.firing target missed replayed turn ∈ stack →
        target + missed * s.config.intervalMs ≤ reading ∧ ⌈replayed⌉₊ ≤ missed := by
    intro stack hsub target missed replayed turn hmem
    obtain ⟨hreached, hceil⟩ := hs.reached target missed replayed turn (hsub _ hmem)
    exact ⟨hreached.trans hreading, hceil⟩
  unfold returns
  split
  · exact ⟨hs.due, hkeep fun f hf => hf, hs.onTime⟩
  · next rest hstack =>
    have hrest : ∀ f ∈ rest, f ∈ s.stack := by
      rw [hstack]
      exact fun f hf => List.mem_cons_of_mem _ hf
    unfold finish
    split
    · exact ⟨hs.due, hkeep hrest, hs.onTime⟩
    · exact ⟨hs.due, hkeep hrest, hs.onTime⟩
  · next target missed replayed turn rest hstack =>
    have hrest : ∀ f ∈ rest, f ∈ s.stack := by
      rw [hstack]
      exact fun f hf => List.mem_cons_of_mem _ hf
    obtain ⟨hreached, hceil⟩ := hs.reached target missed replayed turn (by rw [hstack]; exact List.mem_cons_self)
    -- `finish` is in the flag alone
    obtain ⟨flag, hflag⟩ : ∃ flag, finish { s with stack := rest } async = { s with stack := rest, runningTask := flag } := by
      unfold finish
      split
      · exact ⟨s.runningTask, rfl⟩
      · exact ⟨false, rfl⟩
    dsimp only
    rw [hflag]
    split
    · refine ⟨hs.due, fun target' missed' replayed' turn' hmem => ?_, ?_⟩
      · have hmem : Frame.firing target' missed' replayed' turn' ∈ .firing target missed replayed (turn + 1) :: rest := hmem
        rcases List.mem_cons.mp hmem with heq | hmem
        · injection heq with htarget hmissed hreplayed
          rw [htarget, hmissed, hreplayed]
          exact ⟨hreached.trans hreading, hceil⟩
        · exact hkeep hrest target' missed' replayed' turn' hmem
      · apply runTurn_onTime
        · exact hs.onTime
        · exact ((turnOf_le h hceil (turn + 1)).trans hreached).trans hreading
    · have harm := arm_rest { s with
        stack := rest, runningTask := flag, nextAt := target + (missed + 1) * s.config.intervalMs } reading random
      refine ⟨?_, ?_, ?_⟩
      · refine arm_due (s := { s with
          stack := rest, runningTask := flag, nextAt := target + (missed + 1) * s.config.intervalMs })
          h hfits hrandom ?_ hs.due
        dsimp only
        linarith
      · rw [harm.1]
        exact hkeep hrest
      · intro f hf
        rw [harm.2.1] at hf
        exact hs.onTime f hf

omit [IsStrictOrderedRing K] [FloorRing K] in
theorem start_config (s : Machine K) (now armNow random aimedAt ranAt : K) :
    (start s now armNow random aimedAt ranAt).config = s.config := (start_rest s now armNow random aimedAt ranAt).2.1

section
omit [IsStrictOrderedRing K]

theorem onTimer_config (s : Machine K) (now reading random : K) : (onTimer s now reading random).config = s.config := by
  unfold onTimer
  split
  · rfl
  · dsimp only
    split
    · exact (arm_rest _ _ _).2.2
    · rfl

theorem returns_config (s : Machine K) (async : Bool) (reading random : K) :
    (returns s async reading random).config = s.config := by
  unfold returns finish
  split
  · rfl
  · split <;> rfl
  · dsimp only
    split
    · split <;> rfl
    · refine (arm_rest _ _ _).2.2.trans ?_
      split <;> rfl

theorem step_config (s : Machine K) (m : Move K) : (step s m).config = s.config := by
  cases m with
  | start now armNow random aimedAt ranAt => exact start_config s now armNow random aimedAt ranAt
  | stop | runNow now ranAt => rfl
  | fire id now reading random =>
    show (fire s id now reading random).config = s.config
    unfold fire
    split
    · exact onTimer_config _ now reading random
    · rfl
  | returns async reading random => exact returns_config s async reading random
  | settle =>
    show (if s.stack = [] then { s with runningTask := false } else s).config = s.config
    split <;> rfl

end

omit [Field K] [IsStrictOrderedRing K] [FloorRing K] in
theorem le_last {clock : K} {readings : List K} (h : (clock :: readings).Pairwise (· ≤ ·)) :
    clock ≤ readings.getLastD clock := by
  have hmem : readings.getLastD clock ∈ clock :: readings := List.getLastD_mem_cons
  rcases List.mem_cons.mp hmem with heq | hmem
  · exact heq.ge
  · exact (List.pairwise_cons.mp h).1 _ hmem

theorem Timely.step (h : Timely s) (hchecked : Checked s.config) (hfits : s.config.intervalMs ≤ 2147483647)
    {m : Move K} (hm : Honest s m) : Timely (step s m) := by
  have hchained := h.chained.step m hm.unrestarted
  suffices hact : Reached s.config (act s m) (m.readings.getLastD s.clock) by
    refine ⟨hchained, hact.due, ?_, hact.onTime⟩
    rw [step_config]
    exact hact.reached
  have hclock := le_last hm.forward
  have hkeep : ∀ {s' : Machine K}, s'.armed = s.armed → s'.invoked = s.invoked →
      (∀ target missed replayed turn, Frame.firing target missed replayed turn ∈ s'.stack →
        Frame.firing target missed replayed turn ∈ s.stack) →
      Reached s.config s' (m.readings.getLastD s.clock) := by
    intro s' harmed hinvoked hstack
    refine ⟨?_, fun target missed replayed turn hmem => ?_, ?_⟩
    · rw [harmed]
      exact h.due
    · obtain ⟨hreached, hceil⟩ := h.reached target missed replayed turn (hstack target missed replayed turn hmem)
      exact ⟨hreached.trans hclock, hceil⟩
    · unfold OnTime
      rw [hinvoked]
      exact h.onTime
  cases m with
  | start now armNow random aimedAt ranAt =>
    obtain ⟨hinvoked, -, hstack⟩ := start_rest s now armNow random aimedAt ranAt
    have harmNow : now ≤ armNow :=
      (List.pairwise_cons.mp (List.pairwise_cons.mp hm.forward).2).1 armNow List.mem_cons_self
    have hdue : ∀ t ∈ (start s now armNow random aimedAt ranAt).armed, t.target ≤ t.due :=
      start_due hchecked hfits (hm.draws random List.mem_cons_self) harmNow h.due
    have hrest : Reached s.config { start s now armNow random aimedAt ranAt with armed := s.armed } _ :=
      hkeep rfl hinvoked hstack
    exact ⟨hdue, hrest.reached, hrest.onTime⟩
  | stop =>
    have hrest : Reached s.config { stop s with armed := s.armed } _ := hkeep rfl rfl fun _ _ _ _ hmem => hmem
    exact ⟨fun t ht => h.due t (List.mem_filter.mp ht).1, hrest.reached, hrest.onTime⟩
  | runNow now ranAt =>
    refine hkeep rfl rfl fun target missed replayed turn hmem => ?_
    rcases List.mem_cons.mp hmem with heq | hmem
    · cases heq
    · exact hmem
  | fire id now reading random =>
    show Reached s.config (fire s id now reading random) reading
    unfold fire
    split
    · next hfires =>
      obtain ⟨-, harmed⟩ := h.chained.sole hfires.2
      obtain ⟨t, ht, hid⟩ := List.mem_map.mp hfires.2
      -- the timer is due at its target or after, and does not fire before it is due
      have htarget : s.nextAt ≤ now := by
        rw [← h.chained.aimed t ht]
        exact (h.due t ht).trans (hm.due t ht hid)
      have hreading : now ≤ reading :=
        (List.pairwise_cons.mp (List.pairwise_cons.mp hm.forward).2).1 reading List.mem_cons_self
      exact onTimer_reached (s := { s with armed := s.armed.filter fun t => t.id ≠ id, timer := none }) hchecked hfits
        harmed hfires.1 h.onTime htarget hreading (hm.draws random List.mem_cons_self)
    · exact hkeep rfl rfl fun _ _ _ _ hmem => hmem
  | returns async reading random =>
    exact returns_reached hchecked hfits h hclock (hm.draws random List.mem_cons_self) async
  | settle =>
    show Reached s.config (if s.stack = [] then { s with runningTask := false } else s) s.clock
    split
    · exact hkeep rfl rfl fun _ _ _ _ hmem => hmem
    · exact hkeep rfl rfl fun _ _ _ _ hmem => hmem

/-! ## An interval that does not fit -/

omit [IsStrictOrderedRing K] [FloorRing K] in
theorem jitterDelay_zero (config : Config K) : jitterDelay config 0 = 0 := by
  unfold jitterDelay
  split
  · rw [zero_mul, zero_mul]
  · rfl

def starting (clock : K) : List (Move K) := [.start clock clock 0 clock clock, .returns false clock 0]

section
omit [IsStrictOrderedRing K]

theorem starting_honest (config : Config K) (clock : K) : Meets step Honest (new config clock) (starting clock) := by
  refine ⟨⟨?_, ?_, trivial, trivial⟩, ⟨?_, ?_, trivial, ?_⟩, trivial⟩
  · simp [new, Move.readings]
  · simp [draws]
  · simp [step, Move.readings]
  · simp [draws]
  · intro hlast
    cases hstart : config.runOnStart <;> simp [step, act, start, arm, new, invoke, hstart, lastTurn] at hlast

theorem started (config : Config K) (clock : K) : ∃ s : Machine K,
    run step (new config clock) (starting clock) = s ∧ s.config = config ∧ s.running = true ∧
      s.runningTask = false ∧ s.stack = [] ∧ s.nextAt = clock + config.intervalMs ∧ s.clock = clock ∧
      s.armed = [⟨0, clock + min 2147483647 (max 0 config.intervalMs), clock + config.intervalMs⟩] := by
  refine ⟨_, rfl, ?_⟩
  cases hstart : config.runOnStart <;>
    simp [starting, step, act, start, arm, new, invoke, returns, finish, jitterDelay_zero, hstart, Move.readings]

end

/-- A firing that comes before the target runs the task all the same. -/
theorem fire_early (hchecked : Checked s.config) (hrunning : s.running = true) (hfree : s.runningTask = false)
    (hstack : s.stack = []) {id : ℕ} (hmem : id ∈ s.armed.map Timer.id) (hearly : now < s.nextAt) :
    ¬OnTime (step s (.fire id now now 0)) := by
  have hmissed : ⌊(now - s.nextAt) / s.config.intervalMs⌋₊ = 0 := by
    apply Nat.floor_eq_zero.mpr
    exact (div_neg_of_neg_of_pos (sub_neg.mpr hearly) hchecked.pos).trans one_pos
  have hreplayed : ⌈replayedOf s.config 0⌉₊ = 0 := Nat.le_zero.mp (ceil_replayedOf_le s.config 0)
  have hinvoked : ∃ f ∈ (step s (.fire id now now 0)).invoked, f.scheduledFor = s.nextAt ∧ f.ranAt = now := by
    simp [step, act, fire, hstack, List.mem_map.mp hmem, onTimer, hrunning, hfree, hmissed, runTurn, invoke, turnOf,
      hreplayed, fireOf]
  obtain ⟨f, hf, hscheduled, hran⟩ := hinvoked
  intro honTime
  have hle := honTime f hf
  rw [hscheduled, hran] at hle
  exact absurd hearly hle.not_gt

end

end Machine

/-- In all runs on a clock that does not go back, with a host whose timers are not early and a task
that does not restart the job, no run of the timer is early exactly when the interval fits the
delay of one timer. -/
theorem never_early_iff {K : Type} [Field K] [LinearOrder K] [IsStrictOrderedRing K] [FloorRing K]
    {config : Config K} (hchecked : Machine.Checked config) (clock : K) :
    (∀ moves, Meets Machine.step Machine.Honest (Machine.new config clock) moves →
        Always Machine.step Machine.OnTime (Machine.new config clock) moves) ↔
      config.intervalMs ≤ 2147483647 := by
  constructor
  · intro hall
    by_contra hlong
    obtain ⟨s, hs, hconfig, hrunning, hfree, hstack, hnextAt, hclock, harmed⟩ := Machine.started config clock
    have hhonest := Machine.starting_honest config clock
    have hfires : Machine.Honest s (.fire 0 (clock + 2147483647) (clock + 2147483647) 0) := by
      refine ⟨?_, ?_, ?_, trivial⟩
      · simp [Move.readings, hclock]
      · simp [Machine.draws]
      · intro t ht _
        rw [harmed, List.mem_singleton] at ht
        rw [ht]
        have hmin := min_le_left (2147483647 : K) (max 0 config.intervalMs)
        dsimp only
        linarith
    have hmeets : Meets Machine.step Machine.Honest (Machine.new config clock)
        (Machine.starting clock ++ [.fire 0 (clock + 2147483647) (clock + 2147483647) 0]) := by
      have hsame : Machine.step (Machine.step (Machine.new config clock) (.start clock clock 0 clock clock))
          (.returns false clock 0) = s := hs
      show Machine.Honest _ _ ∧ Machine.Honest _ _ ∧ Machine.Honest _ _ ∧ True
      rw [hsame]
      exact ⟨hhonest.1, hhonest.2.1, hfires, trivial⟩
    have hrun := hall _ hmeets
    have hlast := hrun.last
    rw [run_append, hs] at hlast
    refine Machine.fire_early (hconfig ▸ hchecked) hrunning hfree hstack ?_ ?_ hlast
    · rw [harmed]
      exact List.mem_cons_self
    · rw [hnextAt]
      have hlong := not_le.mp hlong
      linarith
  · intro hfits moves hmoves
    have hinv : ∀ s m, (Machine.Timely s ∧ s.config = config) → Machine.Honest s m →
        Machine.Timely (Machine.step s m) ∧ (Machine.step s m).config = config := by
      rintro s m ⟨h, hconfig⟩ hm
      refine ⟨h.step ?_ ?_ hm, (Machine.step_config s m).trans hconfig⟩
      · rw [hconfig]
        exact hchecked
      · rw [hconfig]
        exact hfits
    have hstart : Machine.Timely (Machine.new config clock) ∧ (Machine.new config clock).config = config :=
      ⟨Machine.Timely.new config clock, rfl⟩
    exact (always_of_meets hinv hstart hmoves).mono fun s h => h.1.onTime

/-- Every 30 days: the first run comes after 24.8 days. -/
theorem early_run :
    let s := run Machine.step (Machine.new ⟨2592000000, none, false, .skip, 0, false⟩ (0 : ℚ))
      [.start 0 0 0 0 0, .fire 0 2147483647 2147483647 0]
    s.invoked = [⟨2592000000, 2147483647, 0, 0⟩] ∧ ¬s.OnTime := by
  intro s
  have hinvoked : s.invoked = [⟨2592000000, 2147483647, 0, 0⟩] := by decide +kernel
  refine ⟨hinvoked, fun h => ?_⟩
  have hle : (2592000000 : ℚ) ≤ 2147483647 := h ⟨2592000000, 2147483647, 0, 0⟩ (by rw [hinvoked]; exact List.mem_cons_self)
  exact absurd hle (by decide +kernel)

/-- Every minute. -/
theorem never_early_minutely :
    Always Machine.step Machine.OnTime (Machine.new ⟨60000, none, false, .skip, 0, false⟩ (0 : ℚ))
      [.start 0 0 0 0 0, .fire 0 60003 60003 0] := by
  have hchecked : Machine.Checked (⟨60000, none, false, .skip, 0, false⟩ : Config ℚ) :=
    ⟨by decide +kernel, fun cap hcap => absurd hcap (Option.not_mem_none cap), le_rfl⟩
  apply (never_early_iff hchecked 0).mpr (by decide +kernel)
  refine ⟨⟨?_, ?_, trivial, trivial⟩, ⟨?_, ?_, ?_, trivial⟩, trivial⟩
  · decide +kernel
  · decide +kernel
  · decide +kernel
  · decide +kernel
  · show ∀ t ∈ _, _
    decide +kernel

end PerformanceHelpers.PowerCron
