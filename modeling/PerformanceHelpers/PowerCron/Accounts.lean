import Mathlib.Tactic.LinearCombination
import PerformanceHelpers.PowerCron

/- The periods a schedule accounts for (`src/helpers/powerCron.js`).

   A run of the timer stands for one period and for those it reports as missed, but a replay of
   `catch-up` reports as missed the one period it runs. A tick that finds a run in flight is
   dropped: its periods are meant to be "reported as missed by the following tick", but that tick
   counts from the target it was given, and nothing reports them.

   What is proved:
     1. `handle_gain` — the runs of one firing stand for the periods it found missed and one more,
        under every policy.
     2. `accounted` — so where no tick is dropped, all periods that have elapsed since the start
        are accounted for, in every state of every run.
     3. `dropped_unaccounted` — and a tick that is dropped loses its periods. -/
namespace PerformanceHelpers.PowerCron

section
variable {K : Type} [Field K] [LinearOrder K] [IsStrictOrderedRing K] [FloorRing K]

/-- A cron, with the replays among the runs of its cadence: a firing replays all its runs but the
last. -/
structure Ledger (K : Type) where
  cron : Cron K
  replays : ℕ

def Ledger.step (l : Ledger K) (e : Event K) : Ledger K :=
  let c := PowerCron.step l.cron e
  match e with
  | .start _ _ _ _ _ => ⟨c, if l.cron.running = true then l.replays else 0⟩
  | .fire _ _ _ _ => ⟨c, l.replays + (c.cadence.length - l.cron.cadence.length - 1)⟩
  | .stop | .runNow _ _ | .settle => ⟨c, l.replays⟩

/-- What the runs of the cadence stand for: one period each, and those they report as missed. -/
def stoodFor (c : Cron K) : K := (c.cadence.map fun f => 1 + f.missed).sum

/-- Every period that has elapsed is accounted for: a replay is the missed period it reports. -/
def Accounted (l : Ledger K) : Prop := stoodFor l.cron = elapsed l.cron + l.replays

/-- What the constructor checks, and a cap that is a whole number where there is one. -/
structure Whole (config : Config K) : Prop where
  interval : 10 ≤ config.intervalMs
  maxCatchUp : ∀ cap ∈ config.maxCatchUp, ∃ n : ℕ, cap = n

/-- A timer does not fire before its target. -/
def Late (c : Cron K) : Event K → Prop
  | .fire now _ _ _ => c.timer.isSome = true → c.nextAt ≤ now
  | _ => True

instance (c : Cron K) : ∀ e, Decidable (Late c e)
  | .fire _ _ _ _ => inferInstanceAs (Decidable (_ → _))
  | .start _ _ _ _ _ | .stop | .runNow _ _ | .settle => inferInstanceAs (Decidable True)

/-- A run in flight drops the tick. -/
def Dropped (c : Cron K) : Event K → Prop
  | .fire _ _ _ _ => c.timer.isSome = true ∧ c.config.overlap = false ∧ c.runningTask = true
  | _ => False

/-! ## The runs of one firing -/

variable {c c' : Cron K}

omit [LinearOrder K] [IsStrictOrderedRing K] [FloorRing K] in
theorem stoodFor_append {f : Fire K} (h : c'.cadence = c.cadence ++ [f]) :
    stoodFor c' = stoodFor c + (1 + f.missed) := by
  unfold stoodFor
  rw [h, List.map_append, List.sum_append, List.map_singleton, List.sum_singleton]

omit [IsStrictOrderedRing K] [FloorRing K] in
/-- A replay stands for the period it runs, and reports that one as missed. -/
theorem stoodFor_replays (target : K) (outcomes : ℕ → Outcome K) (n : ℕ) :
    stoodFor ((List.range n).foldl (replay target outcomes) c) = stoodFor c + 2 * n ∧
      ((List.range n).foldl (replay target outcomes) c).cadence.length = c.cadence.length + n := by
  induction n with
  | zero => exact ⟨by simp, rfl⟩
  | succ n ih =>
    rw [List.range_succ, List.foldl_append, List.foldl_cons, List.foldl_nil]
    generalize (List.range n).foldl (replay target outcomes) c = c' at ih
    have hone : (replay target outcomes c' n).cadence = c'.cadence ++
        [fireOf (target + n * c'.config.intervalMs) 1 (outcomes n).ranAt] := rfl
    constructor
    · have hmissed : (fireOf (target + n * c'.config.intervalMs) 1 (outcomes n).ranAt).missed = 1 :=
        rfl
      rw [stoodFor_append hone, ih.1, hmissed]
      push_cast
      ring
    · rw [hone, List.length_append, ih.2]
      rfl

/-- What a firing leaves that runs the task: its runs stand for the periods it found missed, for its
own, and once more for every replay. -/
structure Gained (c : Cron K) (now : K) (c' : Cron K) (n : ℕ) : Prop where
  config : c'.config = c.config
  running : c'.running = c.running
  anchor : c'.anchor = c.anchor
  seen : c'.seen = c.seen
  nextAt : c'.nextAt = c.nextAt + (missedPeriods c now + 1) * c.config.intervalMs
  length : c'.cadence.length = c.cadence.length + n + 1
  stood : stoodFor c' = stoodFor c + n + missedPeriods c now + 1

omit [IsStrictOrderedRing K] in
/-- The last run of a firing, after its replays. -/
theorem gained_last {now : K} {c₁ : Cron K} {n : ℕ}
    (hfields : c₁.config = c.config ∧ c₁.running = c.running ∧ c₁.anchor = c.anchor ∧
      c₁.seen = c.seen)
    (hstood : stoodFor c₁ = stoodFor c + 2 * n) (hlength : c₁.cadence.length = c.cadence.length + n)
    {counted missed : K} (hmissed : missed + n = missedPeriods c now) (o : Outcome K) (armNow random : K) :
    Gained c now
      (arm { runTask { c₁ with fireCount := counted } c.nextAt missed o with
        nextAt := c.nextAt + (missedPeriods c now + 1) * c.config.intervalMs } armNow random) n := by
  refine ⟨?_, ?_, ?_, ?_, ?_, ?_, ?_⟩
  · rw [arm_config]
    exact hfields.1
  · rw [arm_running]
    exact hfields.2.1
  · rw [arm_anchor]
    exact hfields.2.2.1
  · rw [arm_seen]
    exact hfields.2.2.2
  · rw [arm_nextAt]
  · rw [arm_cadence]
    show (c₁.cadence ++ [fireOf c.nextAt missed o.ranAt]).length = _
    rw [List.length_append, hlength]
    rfl
  · have hcadence : (arm { runTask { c₁ with fireCount := counted } c.nextAt missed o with
        nextAt := c.nextAt + (missedPeriods c now + 1) * c.config.intervalMs } armNow random).cadence =
        c₁.cadence ++ [fireOf c.nextAt missed o.ranAt] := by
      rw [arm_cadence]
      rfl
    have hreport : (fireOf c.nextAt missed o.ranAt).missed = missed := rfl
    rw [stoodFor_append hcadence, hstood, hreport]
    linear_combination hmissed

/-- The runs of one firing stand for the periods it found missed and for its own, under every
policy. -/
theorem handle_gain (hwhole : Whole c.config) (now : K) (outcomes : ℕ → Outcome K)
    (armNow random : K) : ∃ n, Gained c now (handle c now outcomes armNow random) n := by
  unfold handle
  dsimp only
  have hnone : (missedPeriods c now : K) + (0 : ℕ) = missedPeriods c now := by
    rw [Nat.cast_zero, add_zero]
  have hsame : stoodFor c = stoodFor c + 2 * ((0 : ℕ) : K) := by
    rw [Nat.cast_zero, mul_zero, add_zero]
  cases hpolicy : c.config.catchUp with
  | skip =>
    refine ⟨0, ?_⟩
    simp only [reduceCtorEq, if_false]
    exact gained_last ⟨rfl, rfl, rfl, rfl⟩ hsame rfl hnone _ _ _
  | runOnce =>
    refine ⟨0, ?_⟩
    simp only [reduceCtorEq, if_false]
    split
    · exact gained_last (c := c) ⟨rfl, rfl, rfl, rfl⟩
        (show stoodFor { c with fireCount := c.fireCount + (missedPeriods c now : K) } = _ from hsame) rfl hnone _ _ _
    · exact gained_last ⟨rfl, rfl, rfl, rfl⟩ hsame rfl hnone _ _ _
  | catchUp =>
    have hreplayed : ∀ n : ℕ, Gained c now
        (arm { runTask { (List.range n).foldl (replay c.nextAt outcomes) c with
          fireCount := ((List.range n).foldl (replay c.nextAt outcomes) c).fireCount + 1 } c.nextAt
            ((missedPeriods c now : K) - n) (outcomes n) with
          nextAt := c.nextAt + (missedPeriods c now + 1) * c.config.intervalMs } armNow random) n := by
      intro n
      obtain ⟨hstood, hlength⟩ := stoodFor_replays (c := c) c.nextAt outcomes n
      have hrest := replays (c := c) c.nextAt outcomes n
      exact gained_last ⟨hrest.config, hrest.running, hrest.anchor, hrest.seen⟩ hstood hlength
        (sub_add_cancel _ _) _ _ _
    dsimp only
    rw [if_pos rfl]
    cases hcap : c.config.maxCatchUp with
    | none =>
      refine ⟨missedPeriods c now, ?_⟩
      dsimp only
      rw [Nat.ceil_natCast]
      exact hreplayed _
    | some cap =>
      obtain ⟨m, rfl⟩ := hwhole.maxCatchUp cap hcap
      refine ⟨min (missedPeriods c now) m, ?_⟩
      dsimp only
      rw [← Nat.cast_min, Nat.ceil_natCast]
      exact hreplayed _

/-! ## Runs of the schedule -/

omit [FloorRing K] in
theorem Whole.pos {config : Config K} (h : Whole config) : 0 < config.intervalMs :=
  lt_of_lt_of_le (by norm_num) h.interval

/-- What every step keeps that drops no tick: the target is the first period that has not elapsed,
and those before are accounted for. -/
structure Balanced (config : Config K) (l : Ledger K) : Prop where
  configured : l.cron.config = config
  timer : l.cron.timer.isSome = true → l.cron.running = true
  nextAt : l.cron.running = true →
    l.cron.nextAt = l.cron.anchor + ((elapsed l.cron + 1 : ℕ) : K) * config.intervalMs
  accounted : Accounted l

variable {config : Config K} {l : Ledger K}

/-- The periods that have elapsed at a firing: those before its target, its own, and the missed. -/
theorem elapsed_firing {k anchor target now : K} (hk : 0 < k) {n : ℕ}
    (htarget : target = anchor + (n : K) * k) (hlate : target ≤ now) : ⌊(now - anchor) / k⌋₊ = ⌊(now - target) / k⌋₊ + n := by
  have hsplit : (now - anchor) / k = (now - target) / k + n := by
    rw [htarget]
    field_simp
    ring
  rw [hsplit, Nat.floor_add_natCast (div_nonneg (sub_nonneg.mpr hlate) hk.le)]

theorem balanced_new (config : Config K) : Balanced config ⟨new config, 0⟩ := by
  refine ⟨rfl, ?_, ?_, ?_⟩
  · intro h
    cases h
  · intro h
    cases h
  · unfold Accounted stoodFor elapsed new
    dsimp only
    rw [sub_self, zero_div, Nat.floor_zero]
    simp

theorem Balanced.start (h : Balanced config l) (now armNow random runNow : K) (o : Outcome K) :
    Balanced config (l.step (.start now armNow random runNow o)) := by
  by_cases hrunning : l.cron.running = true
  · have hsame : PowerCron.start l.cron now armNow random runNow o = l.cron := if_pos hrunning
    have hstep : l.step (.start now armNow random runNow o) = l := by
      show Ledger.mk (PowerCron.start l.cron now armNow random runNow o) _ = l
      rw [hsame, if_pos hrunning]
    rw [hstep]
    exact h
  · obtain ⟨c, hc⟩ : ∃ c, PowerCron.start l.cron now armNow random runNow o = c := ⟨_, rfl⟩
    have hfields : c.config = l.cron.config ∧ c.running = true ∧ c.nextAt = now + l.cron.config.intervalMs ∧
        c.anchor = now ∧ c.seen = now ∧ c.cadence = [] := by
      rw [← hc]
      unfold PowerCron.start
      rw [if_neg hrunning]
      dsimp only
      split <;> simp [runNowTask]
    obtain ⟨hconfig, hyes, hnextAt, hanchor, hseen, hcadence⟩ := hfields
    have helapsed : elapsed c = 0 := by
      unfold elapsed
      rw [hseen, hanchor, sub_self, zero_div, Nat.floor_zero]
    have hstep : l.step (.start now armNow random runNow o) = ⟨c, 0⟩ := by
      show Ledger.mk (PowerCron.start l.cron now armNow random runNow o) _ = _
      rw [hc, if_neg hrunning]
    rw [hstep]
    refine ⟨hconfig.trans h.configured, fun _ => hyes, fun _ => ?_, ?_⟩
    · show c.nextAt = c.anchor + ((elapsed c + 1 : ℕ) : K) * config.intervalMs
      rw [hnextAt, hanchor, helapsed, h.configured]
      simp
    · show stoodFor c = elapsed c + ((0 : ℕ) : K)
      rw [helapsed, stoodFor, hcadence]
      simp

section
variable (h : Balanced config l) (hwhole : Whole config)
include h hwhole

theorem Balanced.fire {now : K} {outcomes : ℕ → Outcome K}
    {armNow random : K} (hlate : Late l.cron (.fire now outcomes armNow random))
    (hkept : ¬Dropped l.cron (.fire now outcomes armNow random)) :
    Balanced config (l.step (.fire now outcomes armNow random)) := by
  by_cases hset : l.cron.timer.isSome = true
  · have hrunning := h.timer hset
    have htarget := h.nextAt hrunning
    obtain ⟨n, hgain⟩ := handle_gain (c := { l.cron with timer := none, seen := now }) (h.configured ▸ hwhole)
      now outcomes armNow random
    have hfire : PowerCron.step l.cron (.fire now outcomes armNow random) =
        handle { l.cron with timer := none, seen := now } now outcomes armNow random := by
      rw [step_fire hset]
      unfold onTimer
      dsimp only
      rw [if_neg (by simp [hrunning]), if_neg fun hdropped => hkept ⟨hset, hdropped⟩]
    rw [← hfire] at hgain
    have hstep : l.step (.fire now outcomes armNow random) =
        ⟨PowerCron.step l.cron (.fire now outcomes armNow random), l.replays + n⟩ := by
      show Ledger.mk _ _ = _
      have hlength := hgain.length
      dsimp only at hlength
      rw [hlength]
      congr 1
      omega
    rw [hstep]
    generalize PowerCron.step l.cron (.fire now outcomes armNow random) = c at hgain
    have hmissed : missedPeriods { l.cron with timer := none, seen := now } now =
        ⌊(now - l.cron.nextAt) / config.intervalMs⌋₊ := by
      unfold missedPeriods
      rw [h.configured]
    have helapsed : elapsed c = ⌊(now - l.cron.nextAt) / config.intervalMs⌋₊ + (elapsed l.cron + 1) := by
      rw [elapsed, hgain.seen, hgain.anchor, hgain.config]
      dsimp only
      rw [h.configured]
      exact elapsed_firing hwhole.pos htarget (hlate hset)
    refine ⟨hgain.config.trans h.configured, fun _ => hgain.running.trans hrunning, fun _ => ?_, ?_⟩
    · show c.nextAt = c.anchor + ((elapsed c + 1 : ℕ) : K) * config.intervalMs
      rw [hgain.nextAt, hgain.anchor, helapsed, hmissed]
      dsimp only
      rw [h.configured, htarget]
      push_cast
      ring
    · show stoodFor c = elapsed c + ((l.replays + n : ℕ) : K)
      have haccounted : stoodFor l.cron = elapsed l.cron + l.replays := h.accounted
      have hstood : stoodFor c = stoodFor l.cron + n +
          missedPeriods { l.cron with timer := none, seen := now } now + 1 := hgain.stood
      rw [hstood, hmissed, haccounted, helapsed]
      push_cast
      ring
  · have hsame : PowerCron.step l.cron (.fire now outcomes armNow random) = l.cron := step_fire_unset hset
    have hstep : l.step (.fire now outcomes armNow random) = l := by
      show Ledger.mk (PowerCron.step l.cron _) _ = l
      rw [hsame, Nat.sub_self, Nat.zero_sub, Nat.add_zero]
    rw [hstep]
    exact h

theorem Balanced.step {e : Event K}
    (hok : Late l.cron e ∧ ¬Dropped l.cron e) : Balanced config (l.step e) := by
  cases e with
  | start now armNow random runNow o => exact h.start now armNow random runNow o
  | stop =>
    exact ⟨h.configured, fun hset => Bool.noConfusion hset, fun hyes => Bool.noConfusion hyes,
      h.accounted⟩
  | runNow now o => exact { h with }
  | fire now outcomes armNow random => exact h.fire hwhole hok.1 hok.2
  | settle => exact { h with }

/-- A tick that is dropped loses its periods: none of its runs will account for them. -/
theorem dropped_unaccounted {e : Event K} (hlate : Late l.cron e)
    (hdropped : Dropped l.cron e) : ¬Accounted (l.step e) := by
  cases e with
  | fire now outcomes armNow random =>
    obtain ⟨hset, hoverlap, hbusy⟩ := hdropped
    have hrunning := h.timer hset
    have hfire : PowerCron.step l.cron (.fire now outcomes armNow random) =
        arm { l.cron with
          timer := none, seen := now
          nextAt := l.cron.nextAt + (missedPeriods l.cron now + 1) * l.cron.config.intervalMs } armNow random := by
      rw [step_fire hset]
      unfold onTimer
      dsimp only
      rw [if_neg (by simp [hrunning]), if_pos ⟨hoverlap, hbusy⟩]
      rfl
    obtain ⟨c, hc⟩ : ∃ c, PowerCron.step l.cron (.fire now outcomes armNow random) = c := ⟨_, rfl⟩
    have hcadence : c.cadence = l.cron.cadence := by
      rw [← hc, hfire, arm_cadence]
    have helapsed : elapsed c = ⌊(now - l.cron.nextAt) / config.intervalMs⌋₊ + (elapsed l.cron + 1) := by
      rw [elapsed, ← hc, hfire, arm_seen, arm_anchor, arm_config]
      dsimp only
      rw [h.configured]
      exact elapsed_firing hwhole.pos (h.nextAt hrunning) (hlate hset)
    have hstep : l.step (.fire now outcomes armNow random) = ⟨c, l.replays⟩ := by
      show Ledger.mk (PowerCron.step l.cron _) _ = _
      rw [hc, hcadence, Nat.sub_self, Nat.zero_sub, Nat.add_zero]
    rw [hstep]
    intro haccounted
    have hbefore : stoodFor l.cron = elapsed l.cron + l.replays := h.accounted
    have hafter : stoodFor c = elapsed c + (l.replays : K) := haccounted
    have hsame : stoodFor c = stoodFor l.cron := by rw [stoodFor, hcadence, stoodFor]
    have hequal : (elapsed c : K) = elapsed l.cron := by linear_combination hsame + hbefore - hafter
    have hcast : elapsed c = elapsed l.cron := by exact_mod_cast hequal
    omega
  | _ => exact hdropped.elim

end

end

/-- In every run whose firings come at their targets or after, however late, and find no run in
flight that drops them, the periods that have elapsed since the start are those the runs of the
timer stand for, in every state, where a replay is the missed period it reports. -/
theorem accounted {K : Type} [Field K] [LinearOrder K] [IsStrictOrderedRing K] [FloorRing K] {config : Config K}
    (hwhole : Whole config) {events : List (Event K)}
    (hok : Meets Ledger.step (fun l e => Late l.cron e ∧ ¬Dropped l.cron e) ⟨new config, 0⟩ events) :
    Always Ledger.step Accounted ⟨new config, 0⟩ events :=
  (always_of_meets (fun _ _ h he => h.step hwhole he) (balanced_new config) hok).mono fun _ h => h.accounted

theorem everyTen_whole : Whole everyTen := ⟨by decide +kernel, fun _ hcap => by cases hcap⟩

/-- A firing that comes after three periods, and one that comes in time. -/
theorem accounted_late :
    let events : List (Event ℚ) := [.start 0 0 0 0 ⟨0, false⟩, .fire 35 (fun _ => ⟨35, false⟩) 35 0,
      .fire 41 (fun _ => ⟨41, false⟩) 41 0]
    Always Ledger.step Accounted ⟨new everyTen, 0⟩ events := by
  refine accounted everyTen_whole ⟨⟨trivial, not_false⟩, ⟨?_, ?_⟩, ⟨?_, ?_⟩, trivial⟩
  · decide +kernel
  · exact fun h => absurd h.2.1 (by decide +kernel)
  · decide +kernel
  · exact fun h => absurd h.2.1 (by decide +kernel)

/-- The periods that a firing replays are reported by their own runs: three periods have elapsed,
and the runs with those they report as missed are five. -/
theorem replays_overcount :
    let c := run step (new everyTen) [.start 0 0 0 0 ⟨0, false⟩, .fire 35 (fun _ => ⟨35, false⟩) 35 0]
    c.cadence.map Fire.missed = [1, 1, 0] ∧ stoodFor c = 5 ∧ elapsed c = 3 := by
  decide +kernel

end PerformanceHelpers.PowerCron
