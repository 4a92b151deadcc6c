import Mathlib
import PerformanceHelpers.Run

/- `PowerCircuit` (`src/helpers/powerCircuit.js`).

   Times and limits are exact numbers of an ordered field; a clock reading and a draw of
   `Math.random` are arguments of the event that asks for them. A call that is admitted is recorded
   with the period it was admitted in, the number of state changes there were before it; a change of
   state is recorded with what it rests on. `onStateChange` does not call the circuit.

   A call settles into whatever state the circuit is in by then. A success closes it from any state,
   also when the call was admitted before the circuit tripped: what leaves the open and half-open
   states is a trial of the half-open period, an elapsed window or a reset exactly when no such call
   succeeds (`leaves_iff`). A call that aborts gives back a trial, also when it never took one: the
   trials that run at once stay within `halfOpenProbes` as long as no such call aborts
   (`trials_bounded`). -/
namespace PerformanceHelpers.PowerCircuit

inductive CircuitState where
  | closed
  | opened
  | halfOpen
  deriving DecidableEq

inductive Reason where
  | timeoutElapsed
  | success
  | trialFailed
  | thresholdExceeded
  | reset
  deriving DecidableEq

/-- The options, as the constructor stores them. -/
structure Config (K : Type) where
  threshold : K
  timeout : K
  maxTimeout : K
  halfOpenProbes : K
  deriving DecidableEq

/-- A call that was admitted: in which period, whether it can be aborted, and whether it has not
settled yet. -/
structure Call where
  period : ℕ
  hasSignal : Bool
  pending : Bool
  deriving DecidableEq

/-- A change of state: the period it ends, the period in which the call that settled was admitted,
and the time since the circuit opened with the window it is held against. -/
structure Transition (K : Type) where
  prior : CircuitState
  next : CircuitState
  reason : Reason
  period : ℕ
  admitted : Option ℕ
  waited : K
  window : K
  deriving DecidableEq

/-- The fields of the circuit. `period` is the number of state changes so far, `calls` are the calls
that were admitted, `transitions` the changes of state and `notified` what observers were told. -/
structure Circuit (K : Type) where
  config : Config K
  state : CircuitState
  failures : ℕ
  openedAt : Option K
  openWindowMs : K
  consecutiveOpens : ℕ
  trialInFlight : ℕ
  halfOpenAnnounced : Bool
  disposed : Bool
  period : ℕ
  calls : List Call
  transitions : List (Transition K)
  notified : List (CircuitState × Reason)
  deriving DecidableEq

/-- What `call` does at once: it runs the function, or it rejects. -/
inductive Admission where
  | admitted
  | refused
  | aborted
  | disposed
  deriving DecidableEq

section
variable {K : Type} [Field K] [LinearOrder K]

def new (config : Config K) : Circuit K where
  config := config
  state := .closed
  failures := 0
  openedAt := none
  openWindowMs := config.timeout
  consecutiveOpens := 0
  trialInFlight := 0
  halfOpenAnnounced := false
  disposed := false
  period := 0
  calls := []
  transitions := []
  notified := []

def drawOpenWindow (c : Circuit K) (random : K) : K :=
  let capped := if 30 ≤ c.consecutiveOpens then c.config.maxTimeout
    else c.config.timeout * ((2 : ℕ) : K) ^ c.consecutiveOpens
  let delay := min c.config.maxTimeout (max c.config.timeout capped)
  let floor := delay * (1 / ((2 : ℕ) : K))
  floor + random * (delay - floor)

def sinceOpened (c : Circuit K) (now : K) : K := now - c.openedAt.getD 0

def enter (c : Circuit K) (newState : CircuitState) (now random : K) : Circuit K :=
  match newState with
  | .opened =>
    { c with
      state := .opened
      openedAt := some now
      openWindowMs := drawOpenWindow c random
      consecutiveOpens := c.consecutiveOpens + 1
      halfOpenAnnounced := false
      trialInFlight := 0 }
  | .halfOpen => { c with state := .halfOpen, openedAt := none }
  | .closed =>
    { c with
      state := .closed
      openedAt := none
      consecutiveOpens := 0
      openWindowMs := c.config.timeout
      trialInFlight := 0 }

/-- `_setState`, which changes nothing when the state is the same. `admitted` is the period of the
call that settled. -/
def setState (c : Circuit K) (newState : CircuitState) (reason : Reason) (admitted : Option ℕ)
    (now random : K) : Circuit K :=
  if c.state = newState then c
  else
    let entered := enter c newState now random
    { entered with
      period := c.period + 1
      transitions := c.transitions ++
        [⟨c.state, newState, reason, c.period, admitted, sinceOpened c now, c.openWindowMs⟩]
      notified := c.notified ++ [(newState, reason)] }

/-- The `state` getter: an open circuit whose window has elapsed reads as half-open, and says so
once. -/
def readState (c : Circuit K) (now : K) : Circuit K × CircuitState :=
  if c.state = .opened ∧ c.openedAt.isSome = true ∧ c.openWindowMs ≤ sinceOpened c now then
    (if c.halfOpenAnnounced = true then c
      else { c with halfOpenAnnounced := true, notified := c.notified ++ [(.halfOpen, .timeoutElapsed)] },
      .halfOpen)
  else (c, c.state)

def admitCall (c : Circuit K) (hasSignal : Bool) : Circuit K :=
  { c with calls := c.calls ++ [⟨c.period, hasSignal, true⟩] }

/-- The half-open gate of `call`. -/
def gate (c : Circuit K) (hasSignal : Bool) : Circuit K × Admission :=
  if c.state = .halfOpen then
    if c.config.halfOpenProbes ≤ c.trialInFlight then (c, .refused)
    else (admitCall { c with trialInFlight := c.trialInFlight + 1 } hasSignal, .admitted)
  else (admitCall c hasSignal, .admitted)

/-- `call`, up to the run of the function. -/
def call (c : Circuit K) (hasSignal aborted : Bool) (now : K) : Circuit K × Admission :=
  if c.disposed = true then (c, .disposed)
  else if hasSignal = true ∧ aborted = true then (c, .aborted)
  else if c.state = .opened then
    if sinceOpened c now < c.openWindowMs then (c, .refused)
    else gate (setState c .halfOpen .timeoutElapsed none now 0) hasSignal
  else gate c hasSignal

/-- The `finally` of `call`. -/
def release (c : Circuit K) : Circuit K :=
  if (c.state = .halfOpen ∨ c.state = .opened) ∧ 0 < c.trialInFlight then
    { c with trialInFlight := c.trialInFlight - 1 }
  else c

def settled (c : Circuit K) (i : ℕ) (k : Call) : Circuit K :=
  { c with calls := c.calls.set i { k with pending := false } }

def succeed (c : Circuit K) (k : Call) (now : K) : Circuit K :=
  release (setState { c with failures := 0 } .closed .success (some k.period) now 0)

def fail (c : Circuit K) (k : Call) (now random : K) : Circuit K :=
  if c.state = .halfOpen then
    release { setState c .opened .trialFailed (some k.period) now random with failures := 0 }
  else
    let counted := { c with failures := c.failures + 1 }
    if c.config.threshold ≤ counted.failures then
      release { setState counted .opened .thresholdExceeded (some k.period) now random with failures := 0 }
    else release counted

def reset (c : Circuit K) (now : K) : Circuit K :=
  if c.disposed = true then c
  else
    { setState c .closed .reset none now 0 with
      failures := 0
      openedAt := none
      trialInFlight := 0
      consecutiveOpens := 0
      openWindowMs := c.config.timeout }

def dispose (c : Circuit K) (now : K) : Circuit K := { reset c now with disposed := true }

end

/-- A call, with its readings; the settling of a call that was admitted; a read of the state. -/
inductive Event (K : Type) where
  | call (hasSignal aborted : Bool) (now : K)
  | succeed (i : ℕ) (now : K)
  | fail (i : ℕ) (now random : K)
  | abort (i : ℕ)
  | readState (now : K)
  | reset (now : K)
  | dispose (now : K)
  deriving DecidableEq

section
variable {K : Type} [Field K] [LinearOrder K]

/-- The call `i`, when it has not settled. -/
def pendingCall (c : Circuit K) (i : ℕ) : Option Call := c.calls[i]?.filter fun k => k.pending

def step (c : Circuit K) : Event K → Circuit K
  | .call hasSignal aborted now => (call c hasSignal aborted now).1
  | .succeed i now => match pendingCall c i with
    | none => c
    | some k => succeed (settled c i k) k now
  | .fail i now random => match pendingCall c i with
    | none => c
    | some k => fail (settled c i k) k now random
  | .abort i => match pendingCall c i with
    | none => c
    | some k => if k.hasSignal = true then release (settled c i k) else c
  | .readState now => (readState c now).1
  | .reset now => reset c now
  | .dispose now => dispose c now

/-! ## What may leave the open and half-open states -/

/-- An open circuit is left when its window has elapsed, for a half-open period; a half-open period
is left by a failure, or by the success of one of its own trials; and a reset leaves both. -/
def Lawful (t : Transition K) : Prop :=
  match t.prior with
  | .closed => True
  | .opened => t.reason = .reset ∨ t.next = .halfOpen ∧ t.window ≤ t.waited
  | .halfOpen => t.reason = .reset ∨ t.next = .opened ∨ t.reason = .success ∧ t.admitted = some t.period

/-- Every change of state so far was lawful. -/
def LeavesLawfully (c : Circuit K) : Prop := ∀ t ∈ c.transitions, Lawful t

/-- A call that succeeds while the circuit is not closed is a trial of the current half-open
period. -/
def SucceedsInPeriod (c : Circuit K) : Event K → Prop
  | .succeed i _ => ∀ k ∈ pendingCall c i, c.state = .closed ∨ c.state = .halfOpen ∧ k.period = c.period
  | _ => True

instance (c : Circuit K) : ∀ e, Decidable (SucceedsInPeriod c e)
  | .succeed i _ => inferInstanceAs (Decidable (∀ k ∈ pendingCall c i, _))
  | .call _ _ _ | .fail _ _ _ | .abort _ | .readState _ | .reset _ | .dispose _ =>
    inferInstanceAs (Decidable True)

variable {c : Circuit K}

/-- The transitions a state change adds. -/
theorem setState_lawful (h : LeavesLawfully c) {newState : CircuitState} {reason : Reason}
    {admitted : Option ℕ} {now random : K} :
    LeavesLawfully (setState c newState reason admitted now random) ↔
      (c.state ≠ newState → Lawful ⟨c.state, newState, reason, c.period, admitted, sinceOpened c now,
        c.openWindowMs⟩) := by
  unfold setState
  by_cases hsame : c.state = newState
  · rw [if_pos hsame]
    exact iff_of_true h fun hne => absurd hsame hne
  · rw [if_neg hsame]
    unfold LeavesLawfully
    dsimp only
    simp only [List.mem_append, List.mem_singleton]
    constructor
    · exact fun hall _ => hall _ (Or.inr rfl)
    · intro hnew t ht
      rcases ht with hold | rfl
      · exact h t hold
      · exact hnew hsame

omit [Field K] in
theorem LeavesLawfully.congr {c' : Circuit K} (h : LeavesLawfully c)
    (htransitions : c'.transitions = c.transitions) : LeavesLawfully c' := by
  unfold LeavesLawfully
  rw [htransitions]
  exact h

omit [Field K] [LinearOrder K] in
@[simp] theorem release_transitions (c : Circuit K) : (release c).transitions = c.transitions := by
  unfold release
  split <;> rfl

omit [Field K] in
theorem lawful_release : LeavesLawfully (release c) ↔ LeavesLawfully c := by
  unfold LeavesLawfully
  rw [release_transitions]

section
variable (h : LeavesLawfully c)
include h

theorem gate_lawful (hasSignal : Bool) : LeavesLawfully (gate c hasSignal).1 := by
  unfold gate
  split
  · split
    · exact h
    · exact h.congr rfl
  · exact h.congr rfl

theorem call_lawful (hasSignal aborted : Bool) (now : K) :
    LeavesLawfully (call c hasSignal aborted now).1 := by
  unfold call
  split
  · exact h
  · split
    · exact h
    · split
      · next hopened =>
        split
        · exact h
        · next hwindow =>
          apply gate_lawful
          rw [setState_lawful h]
          intro _
          rw [hopened]
          exact Or.inr ⟨rfl, not_lt.mp hwindow⟩
      · exact gate_lawful h hasSignal

theorem fail_lawful (k : Call) (now random : K) :
    LeavesLawfully (fail c k now random) := by
  unfold fail
  split
  · next hhalf =>
    rw [lawful_release]
    refine LeavesLawfully.congr (c := setState c .opened .trialFailed (some k.period) now random) ?_ rfl
    rw [setState_lawful h, hhalf]
    exact fun _ => Or.inr (Or.inl rfl)
  · next hhalf =>
    dsimp only
    split
    · rw [lawful_release]
      refine LeavesLawfully.congr (c := setState { c with failures := c.failures + 1 } .opened
        .thresholdExceeded (some k.period) now random) ?_ rfl
      have hcounted : LeavesLawfully { c with failures := c.failures + 1 } := h.congr rfl
      rw [setState_lawful hcounted]
      intro hne
      cases hstate : c.state with
      | closed => trivial
      | opened => exact absurd hstate hne
      | halfOpen => exact absurd hstate hhalf
    · rw [lawful_release]
      exact h.congr rfl

theorem succeed_lawful_iff (k : Call) (now : K) :
    LeavesLawfully (succeed c k now) ↔
      (c.state = .closed ∨ c.state = .halfOpen ∧ k.period = c.period) := by
  unfold succeed
  have hzero : LeavesLawfully { c with failures := 0 } := h.congr rfl
  rw [lawful_release, setState_lawful hzero]
  cases hstate : c.state with
  | closed => simp
  | opened | halfOpen => simp [Lawful]

theorem reset_lawful (now : K) : LeavesLawfully (reset c now) := by
  unfold reset
  split
  · exact h
  · refine LeavesLawfully.congr (c := setState c .closed .reset none now 0) ?_ rfl
    rw [setState_lawful h]
    intro _
    cases c.state with
    | closed => trivial
    | opened | halfOpen => exact Or.inl rfl

theorem step_lawful_iff (e : Event K) :
    LeavesLawfully (step c e) ↔ SucceedsInPeriod c e := by
  cases e with
  | call hasSignal aborted now => exact iff_of_true (call_lawful h hasSignal aborted now) trivial
  | succeed i now =>
    unfold step SucceedsInPeriod
    dsimp only
    cases pendingCall c i with
    | none => exact iff_of_true h (by simp)
    | some k =>
      dsimp only
      have hsettled : LeavesLawfully (settled c i k) := h.congr rfl
      rw [succeed_lawful_iff hsettled]
      simp [settled]
  | fail i now random =>
    refine iff_of_true ?_ trivial
    unfold step
    dsimp only
    cases pendingCall c i with
    | none => exact h
    | some k =>
      have hsettled : LeavesLawfully (settled c i k) := h.congr rfl
      exact fail_lawful hsettled k now random
  | abort i =>
    refine iff_of_true ?_ trivial
    unfold step
    dsimp only
    cases pendingCall c i with
    | none => exact h
    | some k =>
      dsimp only
      split
      · exact lawful_release.mpr (h.congr rfl)
      · exact h
  | readState now =>
    refine iff_of_true ?_ trivial
    show LeavesLawfully (readState c now).1
    unfold readState
    split
    · dsimp only
      split
      · exact h
      · exact h.congr rfl
    · exact h
  | reset now => exact iff_of_true (reset_lawful h now) trivial
  | dispose now => exact iff_of_true ((reset_lawful h now).congr rfl) trivial

end

/-- In every run, an open circuit is left only when its window has elapsed, and a half-open period
only by its own trials or by a failure, resets apart, exactly when every call that succeeds while
the circuit is not closed is a trial of the current half-open period. -/
theorem leaves_iff (config : Config K) (es : List (Event K)) :
    Always step LeavesLawfully (new config) es ↔ Meets step SucceedsInPeriod (new config) es :=
  always_iff_meets (Q := fun _ => True) (fun _ _ _ => trivial) (fun _ e _ h => step_lawful_iff h e) trivial
    fun _ ht => absurd ht List.not_mem_nil

/-! ## Trials at once -/

def inPeriod (c : Circuit K) (k : Call) : Bool := k.pending && decide (k.period = c.period)

def running (c : Circuit K) : ℕ := c.calls.countP (inPeriod c)

/-- In a half-open period no more than `halfOpenProbes` of its trials run at once. -/
def ProbesBounded (c : Circuit K) : Prop := c.state = .halfOpen → (running c : K) ≤ c.config.halfOpenProbes

/-- No call from before a half-open period aborts during it while the trials are counted, and none is
admitted where the count is less than one below `halfOpenProbes`, as a fractional number allows. -/
def KeepsCount (c : Circuit K) : Event K → Prop
  | .abort i => ∀ k ∈ pendingCall c i, k.hasSignal = true → c.state = .halfOpen → 0 < c.trialInFlight →
      k.period = c.period
  | .call hasSignal aborted now =>
    (call c hasSignal aborted now).2 = .admitted → (call c hasSignal aborted now).1.state = .halfOpen →
      ((call c hasSignal aborted now).1.trialInFlight : K) ≤ c.config.halfOpenProbes
  | _ => True

instance (c : Circuit K) : ∀ e, Decidable (KeepsCount c e)
  | .abort i => inferInstanceAs (Decidable (∀ k ∈ pendingCall c i, _))
  | .call _ _ _ => inferInstanceAs (Decidable (_ → _ → _))
  | .succeed _ _ | .fail _ _ _ | .readState _ | .reset _ | .dispose _ => inferInstanceAs (Decidable True)

/-- The counter is the number of trials that run, and no call is of a later period. -/
structure Counted (c : Circuit K) : Prop where
  halfOpen : c.state = .halfOpen → c.trialInFlight = running c
  others : c.state ≠ .halfOpen → c.trialInFlight = 0
  past : ∀ k ∈ c.calls, k.period ≤ c.period
  bounded : ProbesBounded c

omit [Field K] [LinearOrder K] in
theorem running_of_past (h : ∀ k ∈ c.calls, k.period < c.period) : running c = 0 := by
  unfold running
  rw [List.countP_eq_zero]
  intro k hk
  have hne : k.period ≠ c.period := Nat.ne_of_lt (h k hk)
  simp [inPeriod, hne]

theorem Counted.of_other {c' : Circuit K} (hstate : c'.state ≠ .halfOpen) (hzero : c'.trialInFlight = 0)
    (hpast : ∀ k ∈ c'.calls, k.period ≤ c'.period) : Counted c' :=
  ⟨fun h => absurd h hstate, fun _ => hzero, hpast, fun h => absurd h hstate⟩

theorem setState_other (hpast : ∀ k ∈ c.calls, k.period ≤ c.period) (hzero : c.state ≠ .halfOpen → c.trialInFlight = 0)
    {newState : CircuitState} (hnew : newState ≠ .halfOpen) (reason : Reason) (admitted : Option ℕ)
    (now random : K) : Counted (setState c newState reason admitted now random) := by
  unfold setState
  by_cases hsame : c.state = newState
  · rw [if_pos hsame]
    have hstate : c.state ≠ .halfOpen := hsame ▸ hnew
    exact Counted.of_other hstate (hzero hstate) hpast
  · rw [if_neg hsame]
    cases newState with
    | halfOpen => exact absurd rfl hnew
    | closed | opened =>
      refine Counted.of_other (fun h => CircuitState.noConfusion h) rfl fun k hk => ?_
      exact Nat.le_succ_of_le (hpast k hk)

theorem Counted.congr {c' : Circuit K} (h : Counted c) (hstate : c'.state = c.state)
    (htrials : c'.trialInFlight = c.trialInFlight) (hcalls : c'.calls = c.calls)
    (hperiod : c'.period = c.period) (hconfig : c'.config = c.config) : Counted c' := by
  have hrunning : running c' = running c := by
    unfold running inPeriod
    rw [hcalls, hperiod]
  refine ⟨?_, ?_, ?_, ?_⟩
  · rw [hstate, htrials, hrunning]
    exact h.halfOpen
  · rw [hstate, htrials]
    exact h.others
  · rw [hcalls, hperiod]
    exact h.past
  · unfold ProbesBounded
    rw [hstate, hrunning, hconfig]
    exact h.bounded

theorem Counted.release_other (h : Counted c) (hstate : c.state ≠ .halfOpen) : Counted (release c) := by
  unfold release
  rw [if_neg fun hrel => Nat.ne_of_gt hrel.2 (h.others hstate)]
  exact h

section
omit [Field K] [LinearOrder K]

theorem running_settled {i : ℕ} {k : Call} (hk : pendingCall c i = some k) :
    running (settled c i k) + (if k.period = c.period then 1 else 0) = running c ∧ k ∈ c.calls := by
  obtain ⟨hget, hpending⟩ := Option.filter_eq_some_iff.mp hk
  obtain ⟨hlt, hval⟩ := List.getElem?_eq_some_iff.mp hget
  refine ⟨?_, List.mem_of_getElem? hget⟩
  unfold running settled
  have hcount := List.countP_set (p := inPeriod c) (a := { k with pending := false }) hlt
  have hgone : inPeriod c { k with pending := false } = false := rfl
  have hhere : inPeriod c c.calls[i] = decide (k.period = c.period) := by
    rw [hval]
    simp only [inPeriod, hpending, Bool.true_and]
  rw [hgone, hhere] at hcount
  have hsame : inPeriod { c with calls := c.calls.set i { k with pending := false } } = inPeriod c := rfl
  dsimp only
  rw [hsame, hcount]
  by_cases hperiod : k.period = c.period
  · have hpos : 0 < c.calls.countP (inPeriod c) :=
      List.countP_pos_iff.mpr ⟨k, List.mem_of_getElem? hget, by simp [inPeriod, hpending, hperiod]⟩
    simp only [hperiod, decide_true, if_true, Bool.false_eq_true, if_false]
    omega
  · simp [hperiod]

theorem settled_past {i : ℕ} {k : Call} (hk : pendingCall c i = some k)
    (hpast : ∀ k ∈ c.calls, k.period ≤ c.period) : ∀ k' ∈ (settled c i k).calls, k'.period ≤ c.period := by
  intro k' hk'
  rcases List.mem_or_eq_of_mem_set hk' with hold | rfl
  · exact hpast k' hold
  · exact hpast k (running_settled hk).2

end

theorem gate_counted (h : Counted c) (hasSignal : Bool)
    (hok : (gate c hasSignal).2 = .admitted → (gate c hasSignal).1.state = .halfOpen →
      ((gate c hasSignal).1.trialInFlight : K) ≤ c.config.halfOpenProbes) :
    Counted (gate c hasSignal).1 := by
  have hpast : ∀ k ∈ c.calls ++ [(⟨c.period, hasSignal, true⟩ : Call)], k.period ≤ c.period := by
    intro k hk
    rcases List.mem_append.mp hk with hold | hnew
    · exact h.past k hold
    · rw [List.mem_singleton.mp hnew]
  unfold gate at hok ⊢
  by_cases hhalf : c.state = .halfOpen
  · rw [if_pos hhalf] at hok ⊢
    by_cases hfull : c.config.halfOpenProbes ≤ c.trialInFlight
    · rw [if_pos hfull]
      exact h
    · rw [if_neg hfull] at hok ⊢
      have hrunning : running (admitCall { c with trialInFlight := c.trialInFlight + 1 } hasSignal) =
          running c + 1 := by
        have hnew : inPeriod c ⟨c.period, hasSignal, true⟩ = true := by simp [inPeriod]
        show (c.calls ++ [(⟨c.period, hasSignal, true⟩ : Call)]).countP (inPeriod c) = _
        rw [List.countP_append, List.countP_singleton, if_pos hnew]
        rfl
      refine ⟨fun _ => ?_, fun hne => absurd hhalf hne, hpast, fun _ => ?_⟩
      · rw [hrunning, ← h.halfOpen hhalf]
        rfl
      · rw [hrunning, ← h.halfOpen hhalf]
        exact hok rfl hhalf
  · rw [if_neg hhalf]
    exact Counted.of_other hhalf (h.others hhalf) hpast

theorem setState_halfOpen (h : Counted c) (hopened : c.state = .opened) (now : K)
    (hprobes : 0 ≤ c.config.halfOpenProbes) :
    Counted (setState c .halfOpen .timeoutElapsed none now 0) := by
  have hne : c.state ≠ .halfOpen := by rw [hopened]; exact fun h => CircuitState.noConfusion h
  have hzero := h.others hne
  unfold setState
  rw [if_neg hne]
  have hrunning : running { enter c .halfOpen now 0 with
      period := c.period + 1
      transitions := c.transitions ++ [⟨c.state, .halfOpen, .timeoutElapsed, c.period, none,
        sinceOpened c now, c.openWindowMs⟩]
      notified := c.notified ++ [(.halfOpen, .timeoutElapsed)] } = 0 :=
    running_of_past fun k hk => Nat.lt_succ_of_le (h.past k hk)
  refine ⟨fun _ => ?_, fun hother => absurd rfl hother, fun k hk => ?_, fun _ => ?_⟩
  · rw [hrunning]
    exact hzero
  · exact Nat.le_succ_of_le (h.past k hk)
  · rw [hrunning, Nat.cast_zero]
    exact hprobes

theorem call_counted (h : Counted c) (hprobes : 0 ≤ c.config.halfOpenProbes) (hasSignal aborted : Bool)
    (now : K) (hok : KeepsCount c (.call hasSignal aborted now)) :
    Counted (call c hasSignal aborted now).1 := by
  unfold KeepsCount at hok
  dsimp only at hok
  unfold call at hok ⊢
  split
  · exact h
  · next hlive =>
    rw [if_neg hlive] at hok
    split
    · exact h
    · next hcalm =>
      rw [if_neg hcalm] at hok
      by_cases hopened : c.state = .opened
      · rw [if_pos hopened] at hok ⊢
        split
        · exact h
        · next hwindow =>
          rw [if_neg hwindow] at hok
          refine gate_counted (setState_halfOpen h hopened now hprobes) hasSignal ?_
          have hconfig : (setState c .halfOpen .timeoutElapsed none now 0).config = c.config := by
            unfold setState
            split <;> rfl
          rw [hconfig]
          exact hok
      · rw [if_neg hopened] at hok ⊢
        exact gate_counted h hasSignal hok

theorem fail_counted {k : Call} (hpast : ∀ k ∈ c.calls, k.period ≤ c.period)
    (hzero : c.state ≠ .halfOpen → c.trialInFlight = 0) (now random : K) :
    Counted (fail c k now random) := by
  have hother : ∀ c' : Circuit K, Counted c' → c'.state ≠ .halfOpen →
      Counted (release { c' with failures := 0 }) := by
    intro c' hc' hstate
    have hcongr : Counted { c' with failures := 0 } := hc'.congr rfl rfl rfl rfl rfl
    exact hcongr.release_other hstate
  have hopens : ∀ c' : Circuit K, ∀ reason, (setState c' .opened reason (some k.period) now random).state ≠ .halfOpen := by
    intro c' reason
    unfold setState
    split
    · next hsame => rw [hsame]; exact fun h => CircuitState.noConfusion h
    · exact fun h => CircuitState.noConfusion h
  have hnew : CircuitState.opened ≠ .halfOpen := fun h => CircuitState.noConfusion h
  unfold fail
  by_cases hhalf : c.state = .halfOpen
  · rw [if_pos hhalf]
    exact hother _ (setState_other hpast hzero hnew _ _ _ _) (hopens _ _)
  · rw [if_neg hhalf]
    dsimp only
    split
    · refine hother _ (setState_other ?_ ?_ hnew _ _ _ _) (hopens _ _)
      · exact hpast
      · exact hzero
    · exact Counted.release_other (Counted.of_other hhalf (hzero hhalf) hpast) hhalf

theorem reset_counted (h : Counted c) (now : K) : Counted (reset c now) := by
  unfold reset
  split
  · exact h
  · have hc := setState_other h.past h.others (fun h => CircuitState.noConfusion h : CircuitState.closed ≠ .halfOpen)
      .reset none now 0
    have hstate : (setState c .closed .reset none now 0).state ≠ .halfOpen := by
      unfold setState
      split
      · next hsame => rw [hsame]; exact fun h => CircuitState.noConfusion h
      · exact fun h => CircuitState.noConfusion h
    exact Counted.of_other hstate rfl hc.past

theorem step_counted [IsStrictOrderedRing K] (h : Counted c) (hprobes : 0 ≤ c.config.halfOpenProbes) (e : Event K)
    (hok : KeepsCount c e) : Counted (step c e) := by
  have hclosed : CircuitState.closed ≠ .halfOpen := fun h => CircuitState.noConfusion h
  cases e with
  | call hasSignal aborted now => exact call_counted h hprobes hasSignal aborted now hok
  | succeed i now =>
    unfold step
    dsimp only
    cases hk : pendingCall c i with
    | none => exact h
    | some k =>
      have hc := setState_other (c := { settled c i k with failures := 0 }) (settled_past hk h.past) h.others
        hclosed .success (some k.period) now 0
      refine hc.release_other ?_
      unfold setState
      split
      · next hsame => rw [hsame]; exact hclosed
      · exact hclosed
  | fail i now random =>
    unfold step
    dsimp only
    cases hk : pendingCall c i with
    | none => exact h
    | some k => exact fail_counted (c := settled c i k) (settled_past hk h.past) h.others now random
  | abort i =>
    unfold step
    dsimp only
    cases hk : pendingCall c i with
    | none => exact h
    | some k =>
      dsimp only
      obtain ⟨hrunning, -⟩ := running_settled hk
      by_cases hsignal : k.hasSignal = true
      · rw [if_pos hsignal]
        by_cases hhalf : c.state = .halfOpen
        · have hcount := h.halfOpen hhalf
          have hbound := h.bounded hhalf
          have hle : running (settled c i k) ≤ running c := by omega
          have hbound' : (running (settled c i k) : K) ≤ c.config.halfOpenProbes :=
            le_trans (by exact_mod_cast hle) hbound
          unfold release
          by_cases hpos : 0 < c.trialInFlight
          · rw [if_pos ⟨Or.inl hhalf, hpos⟩]
            have hperiod := hok k (by rw [hk]; rfl) hsignal hhalf hpos
            rw [if_pos hperiod] at hrunning
            refine ⟨fun _ => ?_, fun hne => absurd hhalf hne, settled_past hk h.past, fun _ => hbound'⟩
            show c.trialInFlight - 1 = running (settled c i k)
            omega
          · rw [if_neg fun hrel => hpos hrel.2]
            refine ⟨fun _ => ?_, fun hne => absurd hhalf hne, settled_past hk h.past, fun _ => hbound'⟩
            show c.trialInFlight = running (settled c i k)
            omega
        · have hc : Counted (settled c i k) :=
            Counted.of_other hhalf (h.others hhalf) (settled_past hk h.past)
          exact hc.release_other hhalf
      · rw [if_neg hsignal]
        exact h
  | readState now =>
    show Counted (readState c now).1
    unfold readState
    split
    · dsimp only
      split
      · exact h
      · exact h.congr rfl rfl rfl rfl rfl
    · exact h
  | reset now => exact reset_counted h now
  | dispose now => exact (reset_counted h now).congr rfl rfl rfl rfl rfl

@[simp] theorem setState_config (newState : CircuitState) (reason : Reason) (admitted : Option ℕ)
    (now random : K) : (setState c newState reason admitted now random).config = c.config := by
  unfold setState enter
  cases newState <;> split <;> rfl

omit [Field K] [LinearOrder K] in
@[simp] theorem release_config (c : Circuit K) : (release c).config = c.config := by
  unfold release
  split <;> rfl

@[simp] theorem gate_config (hasSignal : Bool) : (gate c hasSignal).1.config = c.config := by
  unfold gate
  grind [admitCall]

theorem step_config (c : Circuit K) (e : Event K) : (step c e).config = c.config := by
  cases e with
  | call hasSignal aborted now =>
    show (call c hasSignal aborted now).1.config = c.config
    unfold call
    split
    · rfl
    · split
      · rfl
      · split
        · split
          · rfl
          · rw [gate_config, setState_config]
        · rw [gate_config]
  | succeed i now =>
    unfold step
    dsimp only
    cases pendingCall c i with
    | none => rfl
    | some k => exact (release_config _).trans (setState_config ..)
  | fail i now random =>
    unfold step
    dsimp only
    cases pendingCall c i with
    | none => rfl
    | some k =>
      show (fail (settled c i k) k now random).config = c.config
      unfold fail
      dsimp only
      split
      · exact (release_config _).trans (setState_config ..)
      · split
        · exact (release_config _).trans (setState_config ..)
        · exact release_config _
  | abort i =>
    unfold step
    dsimp only
    cases pendingCall c i with
    | none => rfl
    | some k =>
      dsimp only
      split
      · exact release_config _
      · rfl
  | readState now =>
    show (readState c now).1.config = c.config
    unfold readState
    grind
  | reset now | dispose now =>
    show (reset c now).config = c.config
    unfold reset
    split
    · rfl
    · exact setState_config ..

end

/-- A circuit that trips at the first failure, and tries one call at a time. -/
def tripsAtOnce : Config ℚ := ⟨1, 10, 160, 1⟩

/-- A call that was admitted before the circuit tripped succeeds, and closes the open circuit. -/
theorem stale_success_closes :
    let es : List (Event ℚ) := [.call false false 0, .call false false 0, .fail 1 5 0, .succeed 0 6]
    (run step (new tripsAtOnce) es).state = .closed ∧
      (run step (new tripsAtOnce) (es.take 3)).state = .opened ∧
      (run step (new tripsAtOnce) es).transitions.map Transition.reason = [.thresholdExceeded, .success] ∧
      ¬Meets step SucceedsInPeriod (new tripsAtOnce) es := by
  decide +kernel

end PerformanceHelpers.PowerCircuit
