import PerformanceHelpers.PowerCron

/- `PowerCron` whose task calls it (`src/helpers/powerCron.js`).

   A run of the task is taken apart: it begins in one step and returns in another, and between the
   two every call may be made that can be made at all. What is left of the call that made the run
   waits on a stack. The timers are those of the host, each with the target it was armed for; one
   fires when no call of the cron is under way. `onFire` and `onError` are called before a run
   returns, or when no call is under way, so what they call is covered as well.

   A firing re-arms when its last run returns. If the task has stopped and started the job by then,
   a timer is armed already, and the second one takes its handle: two chains run from there, and
   `stop` ends only one.

   What is proved:
     1. `Chained.step` — where no firing ends with a timer armed, there is one chain, armed for the
        next target.
     2. `one_chain_iff` — so in a run there is at most one timer, armed exactly when the job is
        started and for a whole number of intervals, exactly when no firing ends so. -/
namespace PerformanceHelpers.PowerCron

structure Timer (K : Type) where
  id : ℕ
  due : K
  /-- `_nextAt` when it was armed. -/
  target : K
  deriving DecidableEq

inductive Frame (K : Type) where
  /-- Of `runNow`, or of `start`: nothing. -/
  | call
  /-- Of a firing: the runs from `turn` on, and the timer. -/
  | firing (target : K) (missed : ℕ) (replayed : K) (turn : ℕ)
  deriving DecidableEq

structure Machine (K : Type) where
  config : Config K
  running : Bool
  runningTask : Bool
  nextAt : K
  fireCount : K
  totalDriftMs : K
  /-- The handle in `_timer`. -/
  timer : Option ℕ
  /-- The timers of the host. -/
  armed : List (Timer K)
  issued : ℕ
  /-- The reading of the last `start` that took effect. -/
  anchor : K
  stack : List (Frame K)
  /-- The runs the timer made. -/
  invoked : List (Fire K)
  /-- The last reading that was taken. -/
  clock : K
  deriving DecidableEq

/-- A call, at any time; a timer that fires; the return of the task, with what it returns; and a
promise of the task that settles. -/
inductive Move (K : Type) where
  | start (now armNow random aimedAt ranAt : K)
  | stop
  | runNow (now ranAt : K)
  | fire (id : ℕ) (now reading random : K)
  | returns (async : Bool) (reading random : K)
  | settle

def Move.readings {K : Type} : Move K → List K
  | .start now armNow _ aimedAt ranAt => [now, armNow, aimedAt, ranAt]
  | .runNow now ranAt => [now, ranAt]
  | .fire _ now reading _ => [now, reading]
  | .returns _ reading _ => [reading]
  | .stop | .settle => []

namespace Machine

section
variable {K : Type} [Field K] [LinearOrder K] [IsStrictOrderedRing K] [FloorRing K]

def new (config : Config K) (clock : K) : Machine K where
  config := config
  running := false
  runningTask := false
  nextAt := 0
  fireCount := 0
  totalDriftMs := 0
  timer := none
  armed := []
  issued := 0
  anchor := 0
  stack := []
  invoked := []
  clock := clock

def jitterDelay (config : Config K) (random : K) : K :=
  if 0 < config.jitter then random * config.jitter * config.intervalMs else 0

def arm (s : Machine K) (now random : K) : Machine K :=
  if s.running = false then s
  else
    let delay := min 2147483647 (max 0 (s.nextAt - now) + jitterDelay s.config random)
    { s with
      timer := some s.issued
      issued := s.issued + 1
      armed := s.armed ++ [⟨s.issued, now + delay, s.nextAt⟩] }

/-- `_run`, up to the call of the task. -/
def invoke (s : Machine K) (frame : Frame K) (scheduledFor ranAt : K) : Machine K :=
  { s with
    totalDriftMs := s.totalDriftMs + max 0 (ranAt - scheduledFor)
    runningTask := true
    stack := frame :: s.stack }

/-- `start`, with the readings it takes for the anchor, for the timer and for `runOnStart`. -/
def start (s : Machine K) (now armNow random aimedAt ranAt : K) : Machine K :=
  if s.running = true then s
  else
    let s := arm { s with running := true, nextAt := now + s.config.intervalMs, anchor := now } armNow random
    if s.config.runOnStart = true then invoke { s with fireCount := s.fireCount + 1 } .call aimedAt ranAt else s

def stop (s : Machine K) : Machine K :=
  { s with
    running := false
    runningTask := false
    timer := none
    armed := s.armed.filter fun t => some t.id ≠ s.timer }

def runNow (s : Machine K) (now ranAt : K) : Machine K :=
  invoke { s with fireCount := s.fireCount + 1 } .call now ranAt

def replayedOf (config : Config K) (missed : ℕ) : K :=
  match config.catchUp with
  | .catchUp => config.maxCatchUp.elim (missed : K) fun cap => min (missed : K) cap
  | .skip | .runOnce => 0

/-- The time a run of a firing is aimed at, and the periods it stands for. -/
def turnOf (config : Config K) (target : K) (missed : ℕ) (replayed : K) (turn : ℕ) : K × K :=
  if turn < ⌈replayed⌉₊ then (target + turn * config.intervalMs, 1)
  else (target, if config.catchUp = .catchUp then missed - replayed else missed)

def runTurn (s : Machine K) (target : K) (missed : ℕ) (replayed : K) (turn : ℕ) (ranAt : K) : Machine K :=
  let aim := turnOf s.config target missed replayed turn
  invoke
    { s with
      fireCount := s.fireCount + 1
      invoked := s.invoked ++ [fireOf aim.1 aim.2 ranAt] }
    (.firing target missed replayed turn) aim.1 ranAt

/-- `_onTimer`, up to its first run. The reading is of that run, or of `_arm`. -/
def onTimer (s : Machine K) (now reading random : K) : Machine K :=
  if s.running = false then s
  else
    let missed := ⌊(now - s.nextAt) / s.config.intervalMs⌋₊
    if s.config.overlap = false ∧ s.runningTask = true then
      arm { s with nextAt := s.nextAt + (missed + 1) * s.config.intervalMs } reading random
    else
      let folded : K := if s.config.catchUp = .runOnce then (missed : K) else 0
      runTurn { s with fireCount := s.fireCount + folded } s.nextAt missed (replayedOf s.config missed) 0 reading

/-- A timer of the host that is armed fires, when no call is under way. -/
def fire (s : Machine K) (id : ℕ) (now reading random : K) : Machine K :=
  if s.stack = [] ∧ id ∈ s.armed.map Timer.id then
    onTimer { s with armed := s.armed.filter fun t => t.id ≠ id, timer := none } now reading random
  else s

/-- What `_run` does when the task returns: `finish`, or it waits for the promise. -/
def finish (s : Machine K) (async : Bool) : Machine K :=
  if async = true then s else { s with runningTask := false }

/-- The task returns, and what is left of the call that ran it goes on. The reading is of the next
run, or of `_arm`. -/
def returns (s : Machine K) (async : Bool) (reading random : K) : Machine K :=
  match s.stack with
  | [] => s
  | .call :: rest => finish { s with stack := rest } async
  | .firing target missed replayed turn :: rest =>
    let s := finish { s with stack := rest } async
    if turn < ⌈replayed⌉₊ then runTurn s target missed replayed (turn + 1) reading
    else arm { s with nextAt := target + (missed + 1) * s.config.intervalMs } reading random

def act (s : Machine K) : Move K → Machine K
  | .start now armNow random aimedAt ranAt => start s now armNow random aimedAt ranAt
  | .stop => stop s
  | .runNow now ranAt => runNow s now ranAt
  | .fire id now reading random => fire s id now reading random
  | .returns async reading random => returns s async reading random
  | .settle => if s.stack = [] then { s with runningTask := false } else s

def step (s : Machine K) (m : Move K) : Machine K := { act s m with clock := m.readings.getLastD s.clock }

def InFiring (s : Machine K) : Prop := ∃ target missed replayed turn, Frame.firing target missed replayed turn ∈ s.stack

/-- At most one timer is armed, exactly when the job is started (a firing re-arms at its end), and
for a whole number of intervals after the anchor. -/
structure OneChain (s : Machine K) : Prop where
  one : s.armed.length ≤ 1
  armed : ¬s.InFiring → (s.armed ≠ [] ↔ s.running = true)
  target : ∀ t ∈ s.armed, ∃ n : ℕ, t.target = s.anchor + n * s.config.intervalMs

def lastTurn (s : Machine K) : Bool :=
  match s.stack with
  | .firing _ _ replayed turn :: _ => decide (⌈replayed⌉₊ ≤ turn)
  | _ => false

/-- No firing ends with the job started and a timer armed: the task has not stopped it and started
it again. -/
def Unrestarted (s : Machine K) : Move K → Prop
  | .returns _ _ _ => s.lastTurn = true → ¬(s.running = true ∧ s.timer.isSome = true)
  | _ => True

instance (s : Machine K) : ∀ m, Decidable (Unrestarted s m)
  | .returns _ _ _ => inferInstanceAs (Decidable (_ → _))
  | .start _ _ _ _ _ | .stop | .runNow _ _ | .fire _ _ _ _ | .settle => inferInstanceAs (Decidable True)

/-! ## The chain -/

def OnGrid (s : Machine K) (target : K) : Prop := ∃ n : ℕ, target = s.anchor + n * s.config.intervalMs

/-- One chain: the timer that is armed is the one whose handle is kept, it is armed for the next
target while the job is started, and a firing whose job was not restarted is aimed at the grid. -/
structure Chained (s : Machine K) : Prop where
  handles : s.armed.map Timer.id = s.timer.toList
  started : s.timer.isSome = true → s.running = true
  waits : s.running = true → s.timer.isSome = true ∨ s.InFiring
  aimed : ∀ t ∈ s.armed, t.target = s.nextAt
  grid : s.timer.isSome = true → s.OnGrid s.nextAt
  frames : s.running = true → s.timer = none → ∀ target missed replayed turn,
    Frame.firing target missed replayed turn ∈ s.stack → s.OnGrid target

variable {s : Machine K}

section
omit [LinearOrder K] [IsStrictOrderedRing K] [FloorRing K]

theorem Chained.new (config : Config K) (clock : K) : Chained (Machine.new config clock) where
  handles := rfl
  started h := by cases h
  waits h := by cases h
  aimed t ht := absurd ht List.not_mem_nil
  grid h := by cases h
  frames h := by cases h

theorem Chained.armed_nil (h : Chained s) (hidle : s.timer = none) : s.armed = [] := by
  have hhandles := h.handles
  rw [hidle] at hhandles
  exact List.map_eq_nil_iff.mp hhandles

theorem Chained.armed_length (h : Chained s) : s.armed.length = if s.timer.isSome = true then 1 else 0 := by
  have hlength := congrArg List.length h.handles
  rw [List.length_map] at hlength
  rw [hlength]
  cases s.timer <;> rfl

/-- What has one chain has the properties of it that are seen. -/
theorem Chained.oneChain (h : Chained s) : OneChain s := by
  have hlength := h.armed_length
  refine ⟨?_, fun hout => ?_, fun t ht => ?_⟩
  · rw [hlength]
    split <;> decide
  · constructor
    · intro hne
      apply h.started
      by_contra hidle
      rw [if_neg hidle] at hlength
      exact hne (List.length_eq_zero_iff.mp hlength)
    · intro hrunning hnil
      have hset := (h.waits hrunning).resolve_right hout
      rw [if_pos hset, hnil] at hlength
      cases hlength
  · rw [h.aimed t ht]
    apply h.grid
    by_contra hidle
    rw [if_neg hidle] at hlength
    rw [List.length_eq_zero_iff.mp hlength] at ht
    exact List.not_mem_nil ht

end

section
omit [IsStrictOrderedRing K] [FloorRing K]

theorem chained_arm (hidle : s.timer = none) (harmed : s.armed = []) (hgrid : s.running = true → s.OnGrid s.nextAt)
    (now random : K) : Chained (arm s now random) := by
  unfold arm
  by_cases hrunning : s.running = false
  · rw [if_pos hrunning]
    have hno : ¬s.running = true := by rw [hrunning]; decide
    refine ⟨?_, fun h => ?_, fun h => absurd h hno, fun t ht => ?_, fun h => ?_, fun h => absurd h hno⟩
    · rw [hidle, harmed]
      rfl
    · rw [hidle] at h
      cases h
    · rw [harmed] at ht
      exact absurd ht List.not_mem_nil
    · rw [hidle] at h
      cases h
  · rw [if_neg hrunning]
    have hyes : s.running = true := Bool.eq_true_of_not_eq_false hrunning
    dsimp only
    rw [harmed]
    refine ⟨rfl, fun _ => hyes, fun _ => Or.inl rfl, fun t ht => ?_, fun _ => hgrid hyes, fun _ h => ?_⟩
    · rw [List.nil_append, List.mem_singleton] at ht
      rw [ht]
    · cases h

theorem Chained.invoke (h : Chained s) {frame : Frame K}
    (hframe : s.running = true → s.timer = none → ∀ target missed replayed turn,
      frame = .firing target missed replayed turn → s.OnGrid target) (scheduledFor ranAt : K) :
    Chained (invoke s frame scheduledFor ranAt) where
  handles := h.handles
  started := h.started
  waits hrunning := (h.waits hrunning).imp_right fun ⟨target, missed, replayed, turn, hmem⟩ =>
    ⟨target, missed, replayed, turn, List.mem_cons_of_mem _ hmem⟩
  aimed := h.aimed
  grid := h.grid
  frames hrunning hidle target missed replayed turn hmem := by
    rcases List.mem_cons.mp hmem with heq | hmem
    · exact hframe hrunning hidle target missed replayed turn heq.symm
    · exact h.frames hrunning hidle target missed replayed turn hmem

theorem Chained.invoke_call (h : Chained s) (scheduledFor ranAt : K) :
    Chained (Machine.invoke s .call scheduledFor ranAt) := by
  apply h.invoke
  intro _ _ _ _ _ _ heq
  cases heq

theorem Chained.start (h : Chained s) (now armNow random aimedAt ranAt : K) :
    Chained (start s now armNow random aimedAt ranAt) := by
  unfold Machine.start
  by_cases hrunning : s.running = true
  · rw [if_pos hrunning]
    exact h
  · rw [if_neg hrunning]
    have hidle : s.timer = none := by
      apply Option.not_isSome_iff_eq_none.mp
      exact fun hset => hrunning (h.started hset)
    have harmed := chained_arm
      (s := { s with running := true, nextAt := now + s.config.intervalMs, anchor := now })
      hidle (h.armed_nil hidle) (fun _ => ⟨1, by rw [Nat.cast_one, one_mul]⟩) armNow random
    dsimp only
    split
    · apply Chained.invoke_call
      exact { harmed with }
    · exact harmed

end

omit [LinearOrder K] [IsStrictOrderedRing K] [FloorRing K] in
theorem Chained.stop (h : Chained s) : Chained (stop s) := by
  have harmed : (s.armed.filter fun t => decide (some t.id ≠ s.timer)) = [] := by
    apply List.filter_eq_nil_iff.mpr
    intro t ht
    have hmem : t.id ∈ s.timer.toList := h.handles ▸ List.mem_map_of_mem ht
    rw [Option.mem_toList] at hmem
    rw [hmem]
    simp
  refine ⟨?_, fun h => ?_, fun h => ?_, fun t ht => ?_, fun h => ?_, fun h => ?_⟩
  · exact congrArg (List.map Timer.id) harmed
  · cases h
  · cases h
  · have ht : t ∈ s.armed.filter fun t => decide (some t.id ≠ s.timer) := ht
    rw [harmed] at ht
    exact absurd ht List.not_mem_nil
  · cases h
  · cases h

omit [IsStrictOrderedRing K] in
theorem chained_onTimer (hidle : s.timer = none) (harmed : s.armed = []) (hgrid : s.running = true → s.OnGrid s.nextAt)
    (hstack : s.stack = []) (now reading random : K) : Chained (onTimer s now reading random) := by
  unfold onTimer
  by_cases hrunning : s.running = false
  · have hsame : arm s reading random = s := if_pos hrunning
    rw [if_pos hrunning]
    exact hsame ▸ chained_arm hidle harmed hgrid reading random
  · have hyes : s.running = true := Bool.eq_true_of_not_eq_false hrunning
    rw [if_neg hrunning]
    dsimp only
    obtain ⟨n, hn⟩ := hgrid hyes
    split
    · -- the tick is dropped
      refine chained_arm (s := { s with
        nextAt := s.nextAt + (⌊(now - s.nextAt) / s.config.intervalMs⌋₊ + 1) * s.config.intervalMs })
        hidle harmed (fun _ => ?_) reading random
      refine ⟨n + (⌊(now - s.nextAt) / s.config.intervalMs⌋₊ + 1), ?_⟩
      dsimp only
      rw [hn]
      push_cast
      ring
    · refine ⟨?_, fun h => ?_, fun _ => Or.inr ⟨_, _, _, _, List.mem_cons_self⟩, fun t ht => ?_, fun h => ?_, ?_⟩
      · show s.armed.map Timer.id = s.timer.toList
        rw [hidle, harmed]
        rfl
      · exact hyes
      · have ht : t ∈ s.armed := ht
        rw [harmed] at ht
        exact absurd ht List.not_mem_nil
      · have h : s.timer.isSome = true := h
        rw [hidle] at h
        cases h
      · intro _ _ target missed replayed turn hmem
        have hmem : Frame.firing target missed replayed turn ∈ _ :: s.stack := hmem
        rw [hstack, List.mem_singleton] at hmem
        injection hmem with htarget
        rw [htarget]
        exact ⟨n, hn⟩

omit [LinearOrder K] [IsStrictOrderedRing K] [FloorRing K] in
/-- The timer that fires is the only one. -/
theorem Chained.sole (h : Chained s) {id : ℕ} (hmem : id ∈ s.armed.map Timer.id) :
    s.timer.isSome = true ∧ (s.armed.filter fun t => decide (t.id ≠ id)) = [] := by
  rw [h.handles, Option.mem_toList] at hmem
  refine ⟨Option.isSome_iff_exists.mpr ⟨id, hmem⟩, ?_⟩
  apply List.filter_eq_nil_iff.mpr
  intro t ht
  have hid : t.id ∈ s.timer.toList := h.handles ▸ List.mem_map_of_mem ht
  rw [Option.mem_toList] at hid
  rw [Option.some.inj (hid.symm.trans hmem)]
  simp

omit [IsStrictOrderedRing K] in
theorem Chained.fire (h : Chained s) (id : ℕ) (now reading random : K) : Chained (fire s id now reading random) := by
  unfold Machine.fire
  by_cases hfires : s.stack = [] ∧ id ∈ s.armed.map Timer.id
  · obtain ⟨hstack, hmem⟩ := hfires
    rw [if_pos ⟨hstack, hmem⟩]
    obtain ⟨hset, hsole⟩ := h.sole hmem
    exact chained_onTimer (s := { s with armed := s.armed.filter fun t => t.id ≠ id, timer := none }) rfl hsole
      (fun _ => h.grid hset) hstack now reading random
  · rw [if_neg hfires]
    exact h

omit [LinearOrder K] [IsStrictOrderedRing K] [FloorRing K] in
theorem Chained.of_eq (h : Chained s) {s' : Machine K} (hconfig : s'.config = s.config)
    (hrunning : s'.running = s.running) (hnextAt : s'.nextAt = s.nextAt) (htimer : s'.timer = s.timer)
    (harmed : s'.armed = s.armed) (hanchor : s'.anchor = s.anchor) (hin : s.InFiring → s'.InFiring)
    (hframes : ∀ target missed replayed turn, Frame.firing target missed replayed turn ∈ s'.stack →
      ∃ missed replayed turn, Frame.firing target missed replayed turn ∈ s.stack) : Chained s' := by
  have hgrid : ∀ target, s.OnGrid target → s'.OnGrid target := by
    unfold OnGrid
    rw [hanchor, hconfig]
    exact fun _ h => h
  refine ⟨?_, ?_, ?_, ?_, ?_, ?_⟩
  · rw [harmed, htimer]
    exact h.handles
  · rw [htimer, hrunning]
    exact h.started
  · rw [htimer, hrunning]
    exact fun hyes => (h.waits hyes).imp_right hin
  · rw [harmed, hnextAt]
    exact h.aimed
  · rw [htimer, hnextAt]
    exact fun hset => hgrid _ (h.grid hset)
  · rw [htimer, hrunning]
    intro hyes hidle target missed replayed turn hmem
    obtain ⟨missed', replayed', turn', hmem'⟩ := hframes target missed replayed turn hmem
    exact hgrid target (h.frames hyes hidle target missed' replayed' turn' hmem')

omit [IsStrictOrderedRing K] in
theorem Chained.returns (h : Chained s) (async : Bool) (reading random : K)
    (hok : s.lastTurn = true → ¬(s.running = true ∧ s.timer.isSome = true)) :
    Chained (returns s async reading random) := by
  unfold Machine.returns
  split
  · exact h
  · next rest hstack =>
    unfold finish
    have hrest : ∀ {target missed replayed turn}, Frame.firing target missed replayed turn ∈ s.stack ↔
        Frame.firing target missed replayed turn ∈ rest := by
      intro target missed replayed turn
      rw [hstack, List.mem_cons]
      exact or_iff_right (fun heq => by cases heq)
    have hin : s.InFiring → ∃ target missed replayed turn, Frame.firing target missed replayed turn ∈ rest :=
      fun ⟨target, missed, replayed, turn, hmem⟩ => ⟨target, missed, replayed, turn, hrest.mp hmem⟩
    have hframes : ∀ target missed replayed turn, Frame.firing target missed replayed turn ∈ rest →
        ∃ missed replayed turn, Frame.firing target missed replayed turn ∈ s.stack :=
      fun target missed replayed turn hmem => ⟨missed, replayed, turn, hrest.mpr hmem⟩
    split
    · exact h.of_eq rfl rfl rfl rfl rfl rfl hin hframes
    · exact h.of_eq rfl rfl rfl rfl rfl rfl hin hframes
  · next target missed replayed turn rest hstack =>
    have hmem : Frame.firing target missed replayed turn ∈ s.stack := by
      rw [hstack]
      exact List.mem_cons_self
    by_cases hturn : turn < ⌈replayed⌉₊
    · -- the next run is aimed from the same target
      have hframes : ∀ target' missed' replayed' turn',
          Frame.firing target' missed' replayed' turn' ∈ .firing target missed replayed (turn + 1) :: rest →
          ∃ missed replayed turn, Frame.firing target' missed replayed turn ∈ s.stack := by
        intro target' missed' replayed' turn' hmem'
        rcases List.mem_cons.mp hmem' with heq | hmem'
        · injection heq with htarget
          rw [htarget]
          exact ⟨missed, replayed, turn, hmem⟩
        · rw [hstack]
          exact ⟨missed', replayed', turn', List.mem_cons_of_mem _ hmem'⟩
      have hin : ∃ target' missed' replayed' turn',
          Frame.firing target' missed' replayed' turn' ∈ .firing target missed replayed (turn + 1) :: rest :=
        ⟨_, _, _, _, List.mem_cons_self⟩
      dsimp only
      rw [if_pos hturn]
      unfold finish
      split
      · exact h.of_eq rfl rfl rfl rfl rfl rfl (fun _ => hin) hframes
      · exact h.of_eq rfl rfl rfl rfl rfl rfl (fun _ => hin) hframes
    · -- the firing ends, and the job is stopped or has no timer
      have hlast : s.lastTurn = true := by
        unfold lastTurn
        rw [hstack]
        exact decide_eq_true (not_lt.mp hturn)
      have hidle : s.timer = none := by
        apply Option.not_isSome_iff_eq_none.mp
        exact fun hset => hok hlast ⟨h.started hset, hset⟩
      have hgrid : s.running = true → s.OnGrid (target + (missed + 1) * s.config.intervalMs) := by
        intro hrunning
        obtain ⟨n, hn⟩ := h.frames hrunning hidle target missed replayed turn hmem
        refine ⟨n + (missed + 1), ?_⟩
        rw [hn]
        push_cast
        ring
      dsimp only
      rw [if_neg hturn]
      unfold finish
      split
      · apply chained_arm
        · exact hidle
        · exact h.armed_nil hidle
        · exact hgrid
      · apply chained_arm
        · exact hidle
        · exact h.armed_nil hidle
        · exact hgrid

/-! ## Runs -/

section
omit [IsStrictOrderedRing K]

theorem Chained.step (h : Chained s) (m : Move K) (hok : Unrestarted s m) : Chained (step s m) := by
  have hact : Chained (act s m) := by
    cases m with
    | start now armNow random aimedAt ranAt => exact h.start now armNow random aimedAt ranAt
    | stop => exact h.stop
    | runNow now ranAt =>
      apply Chained.invoke_call
      exact { h with }
    | fire id now reading random => exact h.fire id now reading random
    | returns async reading random => exact h.returns async reading random hok
    | settle =>
      show Chained (if s.stack = [] then { s with runningTask := false } else s)
      split
      · exact { h with }
      · exact h
  exact { hact with }

/-- A firing that ends with a timer armed arms a second one. -/
theorem Chained.second (h : Chained s) {m : Move K} (hlost : ¬Unrestarted s m) : (Machine.step s m).armed.length = 2 := by
  cases m with
  | returns async reading random =>
    obtain ⟨hlast, hboth⟩ := Classical.not_imp.mp hlost
    obtain ⟨hrunning, hset⟩ := not_not.mp hboth
    have hone := h.armed_length
    rw [if_pos hset] at hone
    unfold lastTurn at hlast
    show (Machine.returns s async reading random).armed.length = 2
    unfold Machine.returns
    split at hlast
    · next target missed replayed turn rest hstack =>
      rw [hstack]
      dsimp only
      rw [if_neg (not_lt.mpr (of_decide_eq_true hlast))]
      unfold finish arm
      split
      · dsimp only
        rw [if_neg (by simp [hrunning]), List.length_append, hone]
        rfl
      · dsimp only
        rw [if_neg (by simp [hrunning]), List.length_append, hone]
        rfl
    · cases hlast
  | _ => exact absurd trivial hlost

end

end

end Machine

/-- In a run of any order of calls, also from inside the task, and of firings, there is at most one
timer, armed exactly when the job is started (a firing re-arms at its end), and every target is a
whole number of intervals after the anchor, exactly when no firing ends with the job stopped and
started again. -/
theorem one_chain_iff {K : Type} [Field K] [LinearOrder K] [FloorRing K] (config : Config K) (clock : K)
    (moves : List (Move K)) :
    Always Machine.step Machine.OneChain (Machine.new config clock) moves ↔
      Meets Machine.step Machine.Unrestarted (Machine.new config clock) moves := by
  apply always_iff_meets_of (I := Machine.Chained)
  · exact fun s h => h.oneChain
  · exact fun s m h hok => h.step m hok
  · intro s m h hnext
    by_contra hlost
    have htwo := h.second hlost
    have hone := hnext.one
    omega
  · exact Machine.Chained.new config clock

/-- A task that stops the job and starts it again: two timers are armed when its run returns, and
`stop` clears one of them. -/
theorem two_chains :
    let s := run Machine.step (Machine.new ⟨1000, none, false, .skip, 0, false⟩ (0 : ℚ))
      [.start 0 0 0 0 0, .fire 0 1000 1000 0, .stop, .start 1001 1001 0 0 0, .returns false 1002 0]
    s.armed.map Timer.id = [1, 2] ∧ ¬s.OneChain ∧ ((s.step .stop).running, (s.step .stop).armed.length) = (false, 1) := by
  intro s
  have htwo : s.armed.map Timer.id = [1, 2] := by decide +kernel
  refine ⟨htwo, fun h => ?_, by decide +kernel⟩
  have hlength : s.armed.length = 2 := by rw [← List.length_map Timer.id, htwo]; rfl
  have hone := h.one
  omega

end PerformanceHelpers.PowerCron
