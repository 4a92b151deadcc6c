import Mathlib
import PerformanceHelpers.Run

/- `PowerRetryBudget` and `PowerRetry.run` (`src/helpers/powerRetry.js`).

   Token counts are exact. Any number of runs share one budget. A run is a small machine: what
   happens between two points where other code may run is one move, and the moves of all runs, the
   hedge timers and the outcomes that are reported from outside come in any order. A circuit decides
   whether an attempt starts at all; what the operation does, the delays and the signals only decide
   which move comes next.

   A retry takes its token before the backoff, a hedge when its timer is set. A token that was taken
   is therefore either spent on a request that was launched, held by a run (`credit`), or lost, and
   the requests that were launched beside the first attempts are no more than the tokens the budget
   gave out (`extra_bounded`). -/
namespace PerformanceHelpers.PowerRetry

/-- The options of a budget, as the constructor accepts them. -/
structure BudgetOptions (K : Type) [Zero K] [One K] [LE K] where
  ratio : K
  capacity : ℕ
  ratio_nonneg : 0 ≤ ratio
  ratio_le : ratio ≤ 1
  capacity_pos : 1 ≤ capacity

/-- The kind of an outcome; `inherited` is the name of a property every object has, for which the
table of defaults finds a function. -/
inductive Kind where
  | success
  | cancellation
  | timeout
  | throttled
  | failure
  | inherited
  | other
  deriving DecidableEq

/-- What `recordOutcome` is given: `penalty` is `none` when absent, and `some none` when it is not a
finite number. -/
structure Outcome (K : Type) where
  kind : Kind
  penalty : Option (Option K)
  deriving DecidableEq

/-- The fields of `PowerRetryBudget`. -/
structure Budget (K : Type) [Zero K] [One K] [LE K] where
  options : BudgetOptions K
  tokens : K
  retries : ℕ
  refused : ℕ
  funded : ℕ
  outcomes : Kind → ℕ

section
variable {K : Type} [Field K] [LinearOrder K] [IsStrictOrderedRing K]

def newBudget (options : BudgetOptions K) : Budget K where
  options := options
  tokens := options.capacity
  retries := 0
  refused := 0
  funded := 0
  outcomes := fun _ => 0

def recordRequest (b : Budget K) : Budget K :=
  { b with funded := b.funded + 1, tokens := min b.options.capacity (b.tokens + b.options.ratio) }

def tryConsumeRetry (b : Budget K) : Budget K × Bool :=
  if b.tokens < 1 then ({ b with refused := b.refused + 1 }, false)
  else ({ b with tokens := b.tokens - 1, retries := b.retries + 1 }, true)

/-- The penalty of an outcome; `none` is not a finite number. -/
def penaltyOf (o : Outcome K) : Option K :=
  match o.penalty with
  | some p => p
  | none => match o.kind with
    | .success | .cancellation => some 0
    | .timeout => some (1 / ((2 : ℕ) : K))
    | .throttled => some 1
    | .failure | .other => some (1 / ((4 : ℕ) : K))
    | .inherited => none

/-- `recordOutcome`; an outcome it throws for changes nothing. -/
def recordOutcome (b : Budget K) (o : Outcome K) : Budget K :=
  match penaltyOf o with
  | none => b
  | some penalty =>
    if penalty < 0 then b
    else
      { b with
        tokens := max 0 (b.tokens - penalty)
        outcomes := Function.update b.outcomes o.kind (b.outcomes o.kind + 1) }

end

/-! ## A run -/

inductive Phase where
  /-- At the top of the loop. -/
  | loop
  /-- The first leg of the attempt has started, and whether it is hedged comes next. -/
  | leg
  /-- The attempt is awaited. -/
  | pending
  /-- `retryIf` is awaited. -/
  | asking
  /-- Waiting for the next attempt. -/
  | backoff
  | done
  deriving DecidableEq

inductive Hedge where
  | none
  | armed
  | launched
  | cleared
  deriving DecidableEq

/-- A call of `run`: its options and where it is. -/
structure Retry where
  attempts : ℕ
  hedges : Bool
  circuit : Bool
  attempt : ℕ
  phase : Phase
  hedge : Hedge
  deriving DecidableEq

/-- What a run does next. -/
inductive Move (K : Type) where
  /-- The attempt begins, unless the signal is aborted; a circuit may not let it in. -/
  | begin (aborted enters : Bool)
  /-- `hedgeIf` answers. -/
  | arm (wants : Bool)
  /-- The hedge timer fires. -/
  | hedgeTimer
  /-- The race of the legs is over, while a circuit may have given up on it before. -/
  | raceOver
  /-- The attempt succeeds. -/
  | succeed
  /-- The attempt fails, with what `classifyError` makes of the error. -/
  | fail (circuitOpen : Bool) (outcome : Option (Outcome K))
  /-- `retryIf` answers. -/
  | decide (should : Bool)
  /-- The backoff is over, or the signal aborts. -/
  | wake (aborted : Bool)
  deriving DecidableEq

structure Moved (K : Type) [Zero K] [One K] [LE K] where
  budget : Budget K
  run : Retry
  retries : ℕ
  hedges : ℕ

def clearHedge (r : Retry) : Retry := if r.hedge = .armed then { r with hedge := .cleared } else r

/-- Without a circuit the attempt is over when its race is. -/
def settle (r : Retry) : Retry := if r.circuit = true then r else clearHedge r

section
variable {K : Type} [Field K] [LinearOrder K] [IsStrictOrderedRing K]

def stay (b : Budget K) (r : Retry) : Moved K := ⟨b, r, 0, 0⟩

/-- One move of a run. A move that is not its turn changes nothing. -/
def move (b : Budget K) (r : Retry) : Move K → Moved K
  | .begin aborted enters =>
    if r.phase ≠ .loop then stay b r
    else if aborted = true then stay b { r with phase := .done }
    else if r.circuit = true ∧ enters = false then stay b { r with phase := .pending }
    else ⟨b, { r with phase := .leg }, if r.attempt = 1 then 0 else 1, 0⟩
  | .arm wants =>
    if r.phase ≠ .leg then stay b r
    else if r.hedges = true ∧ r.attempt = 1 ∧ wants = true then
      if (tryConsumeRetry b).2 = true then
        stay (tryConsumeRetry b).1 { r with phase := .pending, hedge := .armed }
      else stay (tryConsumeRetry b).1 { r with phase := .pending }
    else stay b { r with phase := .pending }
  | .hedgeTimer =>
    if r.hedge = .armed then ⟨b, { r with hedge := .launched }, 0, 1⟩ else stay b r
  | .raceOver => stay b (clearHedge r)
  | .succeed => if r.phase ≠ .pending then stay b r else stay b { settle r with phase := .done }
  | .fail circuitOpen outcome =>
    if r.phase ≠ .pending then stay b r
    else if circuitOpen = true then stay b { settle r with phase := .done }
    else stay (match outcome with
      | some o => recordOutcome b o
      | none => b) { settle r with phase := .asking }
  | .decide should =>
    if r.phase ≠ .asking then stay b r
    else if should = false ∨ r.attempt = r.attempts then stay b { r with phase := .done }
    else if (tryConsumeRetry b).2 = true then stay (tryConsumeRetry b).1 { r with phase := .backoff }
    else stay (tryConsumeRetry b).1 { r with phase := .done }
  | .wake aborted =>
    if r.phase ≠ .backoff then stay b r
    else if aborted = true then stay b { r with phase := .done }
    else stay b { r with phase := .loop, attempt := r.attempt + 1 }

/-! ## The system -/

/-- The budget, the runs that share it, and the retries and hedges launched so far. -/
structure System (K : Type) [Zero K] [One K] [LE K] where
  budget : Budget K
  runs : List Retry
  retries : ℕ
  hedges : ℕ

/-- A run starts, a run moves, or an outcome is reported from outside. -/
inductive Event (K : Type) where
  | start (attempts : ℕ) (hedges circuit : Bool)
  | move (run : ℕ) (m : Move K)
  | outcome (o : Outcome K)

def start (options : BudgetOptions K) : System K := ⟨newBudget options, [], 0, 0⟩

def step (s : System K) : Event K → System K
  | .start attempts hedges circuit =>
    { s with
      budget := recordRequest s.budget
      runs := s.runs ++ [⟨attempts, hedges, circuit, 1, .loop, .none⟩] }
  | .move i m =>
    match s.runs[i]? with
    | none => s
    | some r =>
      let moved := move s.budget r m
      { budget := moved.budget
        runs := s.runs.set i moved.run
        retries := s.retries + moved.retries
        hedges := s.hedges + moved.hedges }
  | .outcome o => { s with budget := recordOutcome s.budget o }

/-- The tokens a run has taken and not yet spent: one for the attempt after its backoff, and one for
the hedge whose timer is set. -/
def credit (r : Retry) : ℕ :=
  (if r.phase = .backoff ∨ r.phase = .loop ∧ r.attempt ≠ 1 then 1 else 0) +
    if r.hedge = .armed then 1 else 0

/-! ## The budget -/

structure Funded (b : Budget K) : Prop where
  nonneg : 0 ≤ b.tokens
  le : b.tokens ≤ b.options.capacity
  spent : b.tokens + b.retries ≤ b.options.capacity + b.options.ratio * b.funded

variable {b : Budget K}

theorem newBudget_funded (options : BudgetOptions K) : Funded (newBudget options) := by
  refine ⟨Nat.cast_nonneg _, le_refl _, ?_⟩
  show (options.capacity : K) + (0 : ℕ) ≤ options.capacity + options.ratio * (0 : ℕ)
  simp

theorem Funded.recordRequest (h : Funded b) : Funded (recordRequest b) := by
  unfold PowerRetry.recordRequest
  refine ⟨?_, min_le_left _ _, ?_⟩
  · exact le_min (Nat.cast_nonneg _) (add_nonneg h.nonneg b.options.ratio_nonneg)
  · have hspent := h.spent
    calc min (b.options.capacity : K) (b.tokens + b.options.ratio) + b.retries
        ≤ b.tokens + b.options.ratio + b.retries := by
          have hmin := min_le_right (b.options.capacity : K) (b.tokens + b.options.ratio)
          linarith
      _ ≤ b.options.capacity + b.options.ratio * (b.funded + 1 : ℕ) := by
          push_cast
          linarith

theorem Funded.recordOutcome (h : Funded b) (o : Outcome K) : Funded (recordOutcome b o) := by
  unfold PowerRetry.recordOutcome
  cases penaltyOf o with
  | none => exact h
  | some penalty =>
    dsimp only
    split
    · exact h
    · next hpos =>
      have hle : max 0 (b.tokens - penalty) ≤ b.tokens := by
        refine max_le h.nonneg ?_
        linarith [not_lt.mp hpos]
      have hspent := h.spent
      exact ⟨le_max_left _ _, hle.trans h.le, (add_le_add_left hle _).trans hspent⟩

/-- What a retry or a hedge asks the budget. -/
theorem tryConsumeRetry_spec (h : Funded b) :
    Funded (tryConsumeRetry b).1 ∧ (tryConsumeRetry b).1.options = b.options ∧
      (tryConsumeRetry b).1.funded = b.funded ∧
      (tryConsumeRetry b).1.retries = b.retries + if (tryConsumeRetry b).2 = true then 1 else 0 := by
  unfold tryConsumeRetry
  split
  · exact ⟨⟨h.nonneg, h.le, h.spent⟩, rfl, rfl, rfl⟩
  · next hone =>
    have htokens := not_lt.mp hone
    have hspent := h.spent
    have hle := h.le
    refine ⟨⟨?_, ?_, ?_⟩, rfl, rfl, rfl⟩
    · show 0 ≤ b.tokens - 1
      linarith
    · show b.tokens - 1 ≤ b.options.capacity
      linarith
    · show b.tokens - 1 + (b.retries + 1 : ℕ) ≤ b.options.capacity + b.options.ratio * b.funded
      push_cast
      linarith

/-! ## A move -/

/-- A move keeps the budget funded, and launches no more than what it takes from the budget and from
what the run holds. -/
structure Covered (b : Budget K) (r : Retry) (m : Moved K) : Prop where
  funded : Funded m.budget
  options : m.budget.options = b.options
  requests : m.budget.funded = b.funded
  covered : m.retries + m.hedges + credit m.run + b.retries ≤ m.budget.retries + credit r

omit [IsStrictOrderedRing K] in
theorem Covered.stay {r r' : Retry} (h : Funded b) (hcredit : credit r' ≤ credit r) :
    Covered b r (stay b r') := by
  refine ⟨h, rfl, rfl, ?_⟩
  show 0 + 0 + credit r' + b.retries ≤ b.retries + credit r
  omega

theorem clearHedge_credit (r : Retry) : credit (clearHedge r) ≤ credit r := by
  unfold clearHedge
  split
  · next harmed => simp [credit, harmed]
  · exact Nat.le_refl _

@[simp] theorem clearHedge_phase (r : Retry) : (clearHedge r).phase = r.phase := by
  unfold clearHedge
  split <;> rfl

theorem settle_credit {r : Retry} (hphase : r.phase = .pending) {phase : Phase}
    (hspent : phase = .done ∨ phase = .asking) : credit { settle r with phase := phase } ≤ credit r := by
  unfold settle clearHedge credit
  rcases hspent with rfl | rfl <;> grind

/-- A token that is asked for: with it the run holds one more, and without it no more. -/
theorem Covered.consume {r granted refused : Retry} (h : Funded b)
    (hgranted : credit granted ≤ credit r + 1) (hrefused : credit refused ≤ credit r) :
    Covered b r (if (tryConsumeRetry b).2 = true then PowerRetry.stay (tryConsumeRetry b).1 granted
      else PowerRetry.stay (tryConsumeRetry b).1 refused) := by
  obtain ⟨hfunded, hoptions, hrequests, hretries⟩ := tryConsumeRetry_spec h
  by_cases hok : (tryConsumeRetry b).2 = true
  · rw [if_pos hok] at hretries ⊢
    refine ⟨hfunded, hoptions, hrequests, ?_⟩
    show 0 + 0 + credit granted + b.retries ≤ (tryConsumeRetry b).1.retries + credit r
    omega
  · rw [if_neg hok] at hretries ⊢
    refine ⟨hfunded, hoptions, hrequests, ?_⟩
    show 0 + 0 + credit refused + b.retries ≤ (tryConsumeRetry b).1.retries + credit r
    omega

theorem move_covered (h : Funded b) (r : Retry) (m : Move K) : Covered b r (move b r m) := by
  cases m with
  | begin aborted enters =>
    rw [move]
    by_cases hphase : r.phase ≠ .loop
    · rw [if_pos hphase]
      exact Covered.stay h (Nat.le_refl _)
    · replace hphase : r.phase = .loop := not_ne_iff.mp hphase
      rw [if_neg (not_ne_iff.mpr hphase)]
      split
      · exact Covered.stay h (by simp [credit])
      · split
        · exact Covered.stay h (by simp [credit])
        · refine ⟨h, rfl, rfl, ?_⟩
          show (if r.attempt = 1 then 0 else 1) + 0 + credit { r with phase := .leg } + b.retries ≤
            b.retries + credit r
          unfold credit
          grind
  | arm wants =>
    rw [move]
    by_cases hphase : r.phase ≠ .leg
    · rw [if_pos hphase]
      exact Covered.stay h (Nat.le_refl _)
    · replace hphase : r.phase = .leg := not_ne_iff.mp hphase
      rw [if_neg (not_ne_iff.mpr hphase)]
      split
      · apply Covered.consume h
        · unfold credit
          grind
        · unfold credit
          grind
      · exact Covered.stay h (by unfold credit; grind)
  | hedgeTimer =>
    rw [move]
    split
    · next harmed =>
      refine ⟨h, rfl, rfl, ?_⟩
      show 0 + 1 + credit { r with hedge := .launched } + b.retries ≤ b.retries + credit r
      unfold credit
      grind
    · exact Covered.stay h (Nat.le_refl _)
  | raceOver =>
    rw [move]
    exact Covered.stay h (clearHedge_credit r)
  | succeed =>
    rw [move]
    by_cases hphase : r.phase ≠ .pending
    · rw [if_pos hphase]
      exact Covered.stay h (Nat.le_refl _)
    · rw [if_neg hphase]
      exact Covered.stay h (settle_credit (not_ne_iff.mp hphase) (Or.inl rfl))
  | fail circuitOpen outcome =>
    unfold move
    dsimp only
    by_cases hphase : r.phase ≠ .pending
    · rw [if_pos hphase]
      exact Covered.stay h (Nat.le_refl _)
    · rw [if_neg hphase]
      replace hphase : r.phase = .pending := not_ne_iff.mp hphase
      split
      · exact Covered.stay h (settle_credit hphase (Or.inl rfl))
      · have hcredit := settle_credit hphase (Or.inr rfl : Phase.asking = .done ∨ _)
        cases outcome with
        | none => exact Covered.stay h hcredit
        | some o =>
          have hrecord : (recordOutcome b o).options = b.options ∧ (recordOutcome b o).funded = b.funded ∧
              (recordOutcome b o).retries = b.retries := by
            unfold recordOutcome
            grind
          refine ⟨h.recordOutcome o, hrecord.1, hrecord.2.1, ?_⟩
          show 0 + 0 + credit { settle r with phase := .asking } + b.retries ≤
            (recordOutcome b o).retries + credit r
          rw [hrecord.2.2]
          omega
  | decide should =>
    rw [move]
    by_cases hphase : r.phase ≠ .asking
    · rw [if_pos hphase]
      exact Covered.stay h (Nat.le_refl _)
    · rw [if_neg hphase]
      split
      · exact Covered.stay h (by simp [credit])
      · apply Covered.consume h
        · unfold credit
          grind
        · unfold credit
          grind
  | wake aborted =>
    rw [move]
    by_cases hphase : r.phase ≠ .backoff
    · rw [if_pos hphase]
      exact Covered.stay h (Nat.le_refl _)
    · rw [if_neg hphase]
      replace hphase : r.phase = .backoff := not_ne_iff.mp hphase
      split
      · exact Covered.stay h (by simp [credit])
      · exact Covered.stay h (by unfold credit; grind)

/-! ## Any number of runs -/

def held (runs : List Retry) : ℕ := (runs.map credit).sum

theorem held_set {runs : List Retry} {i : ℕ} {r : Retry} (h : runs[i]? = some r) (r' : Retry) :
    held (runs.set i r') + credit r = held runs + credit r' := by
  unfold held
  induction runs generalizing i with
  | nil => simp at h
  | cons r₀ runs ih =>
    cases i with
    | zero =>
      obtain rfl : r₀ = r := by simpa using h
      simp only [List.set_cons_zero, List.map_cons, List.sum_cons]
      omega
    | succ i =>
      have hih := ih (by simpa using h)
      simp only [List.set_cons_succ, List.map_cons, List.sum_cons]
      omega

/-- The budget is funded, and what was launched or is held was taken from it. -/
structure Accounted (options : BudgetOptions K) (s : System K) : Prop where
  options : s.budget.options = options
  funded : Funded s.budget
  covered : s.retries + s.hedges + held s.runs ≤ s.budget.retries

variable {options : BudgetOptions K} {s : System K}

theorem start_accounted (options : BudgetOptions K) : Accounted options (start options) :=
  ⟨rfl, newBudget_funded options, Nat.le_refl _⟩

theorem step_accounted (h : Accounted options s) (e : Event K) : Accounted options (step s e) := by
  cases e with
  | start attempts hedges circuit =>
    refine ⟨h.options, h.funded.recordRequest, ?_⟩
    have hcovered := h.covered
    show s.retries + s.hedges + held (s.runs ++ [⟨attempts, hedges, circuit, 1, .loop, .none⟩]) ≤
      s.budget.retries
    have hnew : held (s.runs ++ [⟨attempts, hedges, circuit, 1, .loop, .none⟩]) = held s.runs := by
      unfold held
      rw [List.map_append, List.sum_append]
      rfl
    omega
  | move i m =>
    cases hrun : s.runs[i]? with
    | none =>
      have hsame : step s (.move i m) = s := by
        unfold step
        dsimp only
        rw [hrun]
      rw [hsame]
      exact h
    | some r =>
      have hmove := move_covered h.funded r m
      have hset := held_set hrun (move s.budget r m).run
      have hcovered := h.covered
      have hone := hmove.covered
      have hstep : step s (.move i m) = ⟨(move s.budget r m).budget, s.runs.set i (move s.budget r m).run,
          s.retries + (move s.budget r m).retries, s.hedges + (move s.budget r m).hedges⟩ := by
        unfold step
        dsimp only
        rw [hrun]
      rw [hstep]
      refine ⟨hmove.options.trans h.options, hmove.funded, ?_⟩
      show s.retries + (move s.budget r m).retries + (s.hedges + (move s.budget r m).hedges) +
        held (s.runs.set i (move s.budget r m).run) ≤ (move s.budget r m).budget.retries
      omega
  | outcome o =>
    have hrecord : (recordOutcome s.budget o).options = s.budget.options ∧
        (recordOutcome s.budget o).retries = s.budget.retries := by
      unfold recordOutcome
      grind
    refine ⟨hrecord.1.trans h.options, h.funded.recordOutcome o, ?_⟩
    show s.retries + s.hedges + held s.runs ≤ (recordOutcome s.budget o).retries
    rw [hrecord.2]
    exact h.covered

/-- In every run of any number of retries that share a budget, the token count stays between zero
and the capacity, and the retries and hedges that were launched are no more than the capacity and
the ratio of the requests that were started. -/
theorem extra_bounded (options : BudgetOptions K) (es : List (Event K)) :
    Always step (fun s : System K => 0 ≤ s.budget.tokens ∧ s.budget.tokens ≤ options.capacity ∧
      ((s.retries + s.hedges : ℕ) : K) ≤ options.capacity + options.ratio * s.budget.funded)
      (start options) es := by
  have hstep : ∀ (s : System K) (e : Event K), Accounted options s → Accounted options (step s e) :=
    fun _ e h => step_accounted h e
  have hruns := always_of_step hstep (start_accounted options) es
  refine hruns.mono fun s h => ⟨h.funded.nonneg, h.options ▸ h.funded.le, ?_⟩
  have hspent := h.funded.spent
  have hnonneg := h.funded.nonneg
  have hlaunched : s.retries + s.hedges ≤ s.budget.retries := le_trans (Nat.le_add_right _ _) h.covered
  rw [h.options] at hspent
  calc ((s.retries + s.hedges : ℕ) : K) ≤ s.budget.retries := by exact_mod_cast hlaunched
    _ ≤ s.budget.tokens + s.budget.retries := by linarith
    _ ≤ options.capacity + options.ratio * s.budget.funded := hspent

end

/-- A hedged attempt that fails and is tried again. -/
theorem extra_bounded_hedged :
    let options : BudgetOptions ℚ := ⟨1 / 5, 10, by norm_num, by norm_num, by norm_num⟩
    Always step (fun s : System ℚ => 0 ≤ s.budget.tokens ∧ s.budget.tokens ≤ options.capacity ∧
        ((s.retries + s.hedges : ℕ) : ℚ) ≤ options.capacity + options.ratio * s.budget.funded) (start options)
      [.start 3 true false, .move 0 (.begin false true), .move 0 (.arm true), .move 0 .hedgeTimer,
        .move 0 (.fail false none), .move 0 (.decide true), .move 0 (.wake false), .move 0 (.begin false true)] :=
  extra_bounded _ _

/-- It has launched one hedge and one retry. -/
example :
    let options : BudgetOptions ℚ := ⟨1 / 5, 10, by norm_num, by norm_num, by norm_num⟩
    let s := run step (start options) [.start 3 true false, .move 0 (.begin false true),
      .move 0 (.arm true), .move 0 .hedgeTimer, .move 0 (.fail false none), .move 0 (.decide true),
      .move 0 (.wake false), .move 0 (.begin false true)]
    s.hedges = 1 ∧ s.retries = 1 ∧ s.budget.tokens = 8 := by
  decide +kernel

end PerformanceHelpers.PowerRetry
