import PerformanceHelpers.PowerRetry

/- A hedged attempt of `PowerRetry.run` (`src/helpers/powerRetry.js`, `runAttempt`).

   Each copy of the request settles when it likes; what the attempt makes of it takes
   microtasks, which run in the order they were queued and before any timer. The result of
   the hedge takes one more of them than that of the first copy. No attempt timeout fires
   here. The attempt counts as settled when the `finally` callback has run.

   `Promise.race` hands on the settlement that reaches it first, whether it is a success or
   a failure.

   What is proved:
     1. `Inv.step` — the copy that wins is the one whose settlement is handed on, and its
        signal is never aborted.
     2. `first_success_wins` — an attempt resolves with its first success, and rejects only
        where all copies have failed, exactly in the runs in which the settlement handed on
        is that success, or finds that all copies have failed. -/
namespace PerformanceHelpers.PowerRetry

inductive Job (E V : Type) where
  /-- `startLeg(true).then(resolve, reject)`. -/
  | hop (r : Except E V)
  /-- The reaction of `tracked`. -/
  | tracked (i : ℕ) (r : Except E V)
  /-- The reaction of `Promise.race`. -/
  | race (r : Except E V)
  /-- The callback of `finally`. -/
  | cleanup

def Job.raced {E V : Type} : Job E V → Option (Except E V)
  | .race r => some r
  | .hop _ | .tracked _ _ | .cleanup => none

/-- The value of a success. -/
def value {E V : Type} : Except E V → Option V
  | .ok v => some v
  | .error _ => none

/-- An attempt: the controllers of its copies, and whether each has aborted; the copies that
have settled, in this order; and what has become of the race. -/
structure Attempt (E V : Type) where
  canSignal : Bool
  requestLegs : List (Option Bool)
  hedge : Hedge
  settled : List (ℕ × Except E V) := []
  winnerIndex : Option ℕ := none
  raced : Option (Except E V) := none
  result : Option (Except E V) := none
  jobs : List (Job E V) := []

/-- What happens to an attempt. -/
inductive AttemptEvent (E V : Type) where
  | hedgeTimer
  | settle (i : ℕ) (r : Except E V)
  | microtask

namespace Attempt

variable {E V : Type}

/-- An attempt begins: with an attempt timeout or none, a hedge that is wanted or not, and a
budget that grants it or not. -/
def start (canSignal timed hedging granted : Bool) : Attempt E V where
  canSignal := canSignal
  requestLegs := [if (timed || hedging) && canSignal then some false else none]
  hedge := if hedging && granted then .armed else .none

variable (s : Attempt E V)

def launch : Attempt E V :=
  if s.hedge = .armed ∧ s.jobs.isEmpty then
    { s with
      hedge := .launched
      requestLegs := s.requestLegs ++ [if s.canSignal then some false else none] }
  else s

/-- A copy that has been launched settles. -/
def settle (i : ℕ) (r : Except E V) : Attempt E V :=
  if i < s.requestLegs.length ∧ i ∉ s.settled.map Prod.fst then
    { s with
      settled := s.settled ++ [(i, r)]
      jobs := s.jobs ++ [if i = 0 then .tracked i r else .hop r] }
  else s

/-- The `finally` callback: the timer is cleared, and the other copies are aborted. -/
def cleanup : Attempt E V :=
  { s with
    hedge := if s.hedge = .armed then .cleared else s.hedge
    requestLegs :=
      if s.hedge = .launched then
        s.requestLegs.mapIdx fun i controller =>
          if s.winnerIndex = some i then controller else controller.map fun _ => true
      else s.requestLegs
    result := s.raced }

def runJob : Job E V → Attempt E V
  | .hop r => { s with jobs := s.jobs ++ [.tracked 1 r] }
  | .tracked i r => { s with winnerIndex := s.winnerIndex.or (some i), jobs := s.jobs ++ [.race r] }
  | .race r =>
    if s.raced.isNone then { s with raced := some r, jobs := s.jobs ++ [.cleanup] } else s
  | .cleanup => s.cleanup

/-- A step of an attempt. -/
def step : AttemptEvent E V → Attempt E V
  | .hedgeTimer => s.launch
  | .settle i r => s.settle i r
  | .microtask =>
    match s.jobs with
    | [] => s
    | job :: jobs => { s with jobs }.runJob job

/-! ## What the copies have done -/

def firstSuccess : Option V := s.settled.findSome? fun p => value p.2

def AllFailed : Prop := ∀ i < s.requestLegs.length, ∃ x, (i, .error x) ∈ s.settled

/-- Where the attempt is: what has settled is on its way to the race or has reached it, and
what reaches it first is handed on. -/
structure Inv : Prop where
  known : ∀ p ∈ s.settled, p.1 < s.requestLegs.length
  once : (s.settled.map Prod.fst).Nodup
  hop : ∀ r, .hop r ∈ s.jobs → (1, r) ∈ s.settled
  tracked : ∀ i r, .tracked i r ∈ s.jobs → (i, r) ∈ s.settled
  coming : s.settled ≠ [] → s.winnerIndex = none →
    ∃ job ∈ s.jobs, (∃ r, job = .hop r) ∨ ∃ i r, job = .tracked i r
  unraced : s.winnerIndex = none → s.raced = none ∧ ∀ r, .race r ∉ s.jobs
  winner : ∀ i, s.winnerIndex = some i →
    ∃ r, (i, r) ∈ s.settled ∧ s.raced.or (s.jobs.findSome? Job.raced) = some r
  handed : s.result = none → s.raced ≠ none → .cleanup ∈ s.jobs
  result : s.result ≠ none → s.result = s.raced ∧ s.hedge ≠ .armed
  cleanup : .cleanup ∈ s.jobs → s.raced ≠ none
  signals : ∀ i, s.requestLegs[i]? = some (some true) → s.winnerIndex ≠ some i ∧ s.result ≠ none
  legs : s.requestLegs.length = if s.hedge = .launched then 2 else 1

/-- An attempt that resolves does so with the value of the first copy to succeed, one that
rejects has had all its copies fail, one of whose copies succeeds resolves, and the copy whose
result is returned has not been told to stop. -/
structure FirstWins : Prop where
  resolves : ∀ v, s.result = some (.ok v) → s.firstSuccess = some v
  rejects : ∀ x, s.result = some (.error x) → s.AllFailed
  succeeds : s.jobs = [] → ∀ v, s.firstSuccess = some v → s.result = some (.ok v)
  signal : ∀ r, s.result = some r →
    ∃ i, s.winnerIndex = some i ∧ (i, r) ∈ s.settled ∧ s.requestLegs[i]? ≠ some (some true)

/-- What is handed on is the first success, or all copies have failed. -/
def HandsOn : AttemptEvent E V → Prop
  | .microtask => (∃ jobs, s.jobs = .cleanup :: jobs) →
      (∀ v, s.raced = some (.ok v) → s.firstSuccess = some v) ∧
        ∀ x, s.raced = some (.error x) → s.AllFailed
  | .hedgeTimer | .settle _ _ => True

section
variable {s : Attempt E V}

theorem start_inv (canSignal timed hedging granted : Bool) :
    (start canSignal timed hedging granted : Attempt E V).Inv := by
  constructor
  · exact fun p hp => nomatch hp
  · exact List.nodup_nil
  · exact fun r hr => nomatch hr
  · exact fun i r hr => nomatch hr
  · exact fun h => absurd rfl h
  · exact fun _ => ⟨rfl, fun r hr => nomatch hr⟩
  · exact fun i hi => nomatch hi
  · exact fun _ h => absurd rfl h
  · exact fun h => absurd rfl h
  · exact fun h => nomatch h
  · intro i hi
    cases i with
    | zero =>
      revert hi
      simp only [start, List.getElem?_cons_zero, Option.some.injEq]
      split <;> exact fun h => nomatch h
    | succ i => cases hi
  · rw [if_neg]
    · rfl
    · simp only [start]
      split <;> exact fun h => nomatch h

/-- The controller of a copy that has just started has not aborted. -/
theorem fresh_controller {canSignal : Bool} {i : ℕ} :
    [if canSignal then some false else none][i]? ≠ some (some true) := by
  cases i with
  | zero => cases canSignal <;> exact fun h => nomatch h
  | succ i => exact fun h => nomatch h

section
variable (hs : s.Inv)
include hs

theorem Inv.launch : s.launch.Inv := by
  unfold Attempt.launch
  split
  · next h =>
    obtain ⟨harmed, hjobs⟩ := h
    have hresult : s.result = none := by
      by_contra hne
      exact (hs.result hne).2 harmed
    refine { hs with known := ?_, result := ?_, signals := ?_, legs := ?_ }
    · intro p hp
      rw [List.length_append]
      exact Nat.lt_add_right _ (hs.known p hp)
    · exact fun hne => absurd hresult hne
    · intro i hi
      rcases lt_or_ge i s.requestLegs.length with hlt | hge
      · rw [List.getElem?_append_left hlt] at hi
        exact hs.signals i hi
      · rw [List.getElem?_append_right hge] at hi
        exact absurd hi fresh_controller
    · have hlegs := hs.legs
      rw [harmed, if_neg (fun h => nomatch h)] at hlegs
      rw [List.length_append, hlegs]
      rfl
  · exact hs

theorem Inv.settle (i : ℕ) (r : Except E V) : (s.settle i r).Inv := by
  unfold Attempt.settle
  split
  · next h =>
    obtain ⟨hlaunched, hnew⟩ := h
    have hjob : ∀ job, job ∈ s.jobs ++ [if i = 0 then Job.tracked i r else .hop r] →
        job ∈ s.jobs ∨ i = 0 ∧ job = .tracked i r ∨ i = 1 ∧ job = .hop r := by
      intro job hjob
      rcases List.mem_append.mp hjob with hjob | hjob
      · exact Or.inl hjob
      · right
        have hjob := List.mem_singleton.mp hjob
        split at hjob
        · next hi => exact Or.inl ⟨hi, hjob⟩
        · next hi =>
          have hlegs := hs.legs
          refine Or.inr ⟨?_, hjob⟩
          split at hlegs <;> omega
    constructor
    · intro p hp
      rcases List.mem_append.mp hp with hp | hp
      · exact hs.known p hp
      · rw [List.mem_singleton.mp hp]
        exact hlaunched
    · rw [List.map_append]
      refine List.nodup_append.mpr ⟨hs.once, List.nodup_singleton i, fun a ha b hb hab => ?_⟩
      have hb : b = i := List.mem_singleton.mp hb
      exact hnew (hb ▸ hab ▸ ha)
    · intro r' hr'
      rcases hjob _ hr' with hr' | ⟨-, hr'⟩ | ⟨hi, hr'⟩
      · exact List.mem_append_left _ (hs.hop r' hr')
      · cases hr'
      · cases hr'
        rw [hi]
        exact List.mem_append_right _ (List.mem_singleton_self _)
    · intro i' r' hr'
      rcases hjob _ hr' with hr' | ⟨-, hr'⟩ | ⟨-, hr'⟩
      · exact List.mem_append_left _ (hs.tracked i' r' hr')
      · cases hr'
        exact List.mem_append_right _ (List.mem_singleton_self _)
      · cases hr'
    · intro _ _
      refine ⟨_, List.mem_append_right _ (List.mem_singleton_self _), ?_⟩
      split
      · exact Or.inr ⟨i, r, rfl⟩
      · exact Or.inl ⟨r, rfl⟩
    · intro hwinner
      obtain ⟨hraced, hrace⟩ := hs.unraced hwinner
      refine ⟨hraced, fun r' hr' => ?_⟩
      rcases hjob _ hr' with hr' | ⟨-, hr'⟩ | ⟨-, hr'⟩
      · exact hrace r' hr'
      · cases hr'
      · cases hr'
    · intro i' hi'
      obtain ⟨r', hmem, hraced⟩ := hs.winner i' hi'
      refine ⟨r', List.mem_append_left _ hmem, ?_⟩
      have hnone : [if i = 0 then Job.tracked i r else .hop r].findSome? Job.raced = none := by
        split <;> rfl
      rw [List.findSome?_append, hnone, Option.or_none]
      exact hraced
    · exact fun hresult hraced => List.mem_append_left _ (hs.handed hresult hraced)
    · exact hs.result
    · intro hcleanup
      rcases hjob _ hcleanup with hcleanup | ⟨-, hcleanup⟩ | ⟨-, hcleanup⟩
      · exact hs.cleanup hcleanup
      · cases hcleanup
      · cases hcleanup
    · exact hs.signals
    · exact hs.legs
  · exact hs

/-- Some job is left, whatever runs first. -/
theorem Inv.hopped {r : Except E V} {jobs : List (Job E V)} (hjobs : s.jobs = .hop r :: jobs) :
    ({ s with jobs := jobs ++ [.tracked 1 r] } : Attempt E V).Inv := by
  have hmem : ∀ job ∈ jobs, job ∈ s.jobs := fun job hjob => hjobs ▸ List.mem_cons_of_mem _ hjob
  have hjob : ∀ job ∈ jobs ++ [Job.tracked 1 r], job ∈ s.jobs ∨ job = .tracked 1 r := by
    intro job hjob
    rcases List.mem_append.mp hjob with hjob | hjob
    · exact Or.inl (hmem job hjob)
    · exact Or.inr (List.mem_singleton.mp hjob)
  refine { hs with
    hop := ?_, tracked := ?_, coming := ?_, unraced := ?_, winner := ?_, handed := ?_, cleanup := ?_ }
  · intro r' hr'
    rcases hjob _ hr' with hr' | hr'
    · exact hs.hop r' hr'
    · cases hr'
  · intro i r' hr'
    rcases hjob _ hr' with hr' | hr'
    · exact hs.tracked i r' hr'
    · cases hr'
      exact hs.hop r (hjobs ▸ List.mem_cons_self)
  · exact fun _ _ => ⟨_, List.mem_append_right _ (List.mem_singleton_self _), Or.inr ⟨1, r, rfl⟩⟩
  · intro hwinner
    obtain ⟨hraced, hrace⟩ := hs.unraced hwinner
    refine ⟨hraced, fun r' hr' => ?_⟩
    rcases hjob _ hr' with hr' | hr'
    · exact hrace r' hr'
    · cases hr'
  · intro i hi
    obtain ⟨r', hmem', hraced⟩ := hs.winner i hi
    refine ⟨r', hmem', ?_⟩
    rw [hjobs] at hraced
    rw [List.findSome?_append]
    exact (congrArg _ Option.or_none).trans hraced
  · intro hresult hraced
    have hcleanup := hs.handed hresult hraced
    rw [hjobs] at hcleanup
    rcases List.mem_cons.mp hcleanup with h | h
    · cases h
    · exact List.mem_append_left _ h
  · intro hcleanup
    rcases hjob _ hcleanup with hcleanup | hcleanup
    · exact hs.cleanup hcleanup
    · cases hcleanup

theorem Inv.tracks {i : ℕ} {r : Except E V} {jobs : List (Job E V)}
    (hjobs : s.jobs = .tracked i r :: jobs) :
    ({ s with winnerIndex := s.winnerIndex.or (some i), jobs := jobs ++ [.race r] } : Attempt E V).Inv := by
  have hmem : ∀ job ∈ jobs, job ∈ s.jobs := fun job hjob => hjobs ▸ List.mem_cons_of_mem _ hjob
  have hjob : ∀ job ∈ jobs ++ [Job.race r], job ∈ s.jobs ∨ job = .race r := by
    intro job hjob
    rcases List.mem_append.mp hjob with hjob | hjob
    · exact Or.inl (hmem job hjob)
    · exact Or.inr (List.mem_singleton.mp hjob)
  have hchosen : s.winnerIndex.or (some i) ≠ none := by
    cases s.winnerIndex <;> exact fun h => nomatch h
  refine { hs with
    hop := ?_, tracked := ?_, coming := ?_, unraced := ?_, winner := ?_, handed := ?_
    cleanup := ?_, signals := ?_ }
  · intro r' hr'
    rcases hjob _ hr' with hr' | hr'
    · exact hs.hop r' hr'
    · cases hr'
  · intro i' r' hr'
    rcases hjob _ hr' with hr' | hr'
    · exact hs.tracked i' r' hr'
    · cases hr'
  · exact fun _ h => absurd h hchosen
  · exact fun h => absurd h hchosen
  · intro i' hi'
    rw [List.findSome?_append]
    cases hwinner : s.winnerIndex with
    | none =>
      obtain ⟨hraced, hrace⟩ := hs.unraced hwinner
      have hnone : jobs.findSome? Job.raced = none := by
        refine List.findSome?_eq_none_iff.mpr fun job hjob => ?_
        cases job with
        | race r' => exact absurd (hmem _ hjob) (hrace r')
        | _ => rfl
      rw [hwinner] at hi'
      cases hi'
      refine ⟨r, hs.tracked i r (hjobs ▸ List.mem_cons_self), ?_⟩
      dsimp only
      rw [hraced, hnone]
      rfl
    | some j =>
      rw [hwinner] at hi'
      cases hi'
      obtain ⟨r', hmem', hraced⟩ := hs.winner i' hwinner
      refine ⟨r', hmem', ?_⟩
      rw [hjobs] at hraced
      rw [← Option.or_assoc]
      exact Option.or_eq_some_iff.mpr (Or.inl hraced)
  · intro hresult hraced
    have hcleanup := hs.handed hresult hraced
    rw [hjobs] at hcleanup
    rcases List.mem_cons.mp hcleanup with h | h
    · cases h
    · exact List.mem_append_left _ h
  · intro hcleanup
    rcases hjob _ hcleanup with hcleanup | hcleanup
    · exact hs.cleanup hcleanup
    · cases hcleanup
  · intro i' hi'
    obtain ⟨hother, hresult⟩ := hs.signals i' hi'
    refine ⟨?_, hresult⟩
    cases hwinner : s.winnerIndex with
    | none =>
      -- what has been returned has won the race
      have hraced := (hs.unraced hwinner).1
      rw [(hs.result hresult).1] at hresult
      exact absurd hraced hresult
    | some j =>
      rw [hwinner] at hother
      exact hother

/-- The race hands on what reaches it first. -/
theorem Inv.races {r : Except E V} {jobs : List (Job E V)}
    (hjobs : s.jobs = .race r :: jobs) : (({ s with jobs } : Attempt E V).runJob (.race r)).Inv := by
  have hmem : ∀ job ∈ jobs, job ∈ s.jobs := fun job hjob => hjobs ▸ List.mem_cons_of_mem _ hjob
  have hwinner : s.winnerIndex ≠ none := fun h => (hs.unraced h).2 r (hjobs ▸ List.mem_cons_self)
  unfold runJob
  dsimp only
  split
  · next hraced =>
    have hraced : s.raced = none := Option.isNone_iff_eq_none.mp hraced
    have hresult : s.result = none := by
      by_contra hne
      rw [(hs.result hne).1] at hne
      exact hne hraced
    have hjob : ∀ job ∈ jobs ++ [Job.cleanup], job ∈ s.jobs ∨ job = .cleanup := by
      intro job hjob
      rcases List.mem_append.mp hjob with hjob | hjob
      · exact Or.inl (hmem job hjob)
      · exact Or.inr (List.mem_singleton.mp hjob)
    refine { hs with
      hop := ?_, tracked := ?_, coming := ?_, unraced := ?_, winner := ?_, handed := ?_
      result := ?_, cleanup := ?_ }
    · intro r' hr'
      rcases hjob _ hr' with hr' | hr'
      · exact hs.hop r' hr'
      · cases hr'
    · intro i r' hr'
      rcases hjob _ hr' with hr' | hr'
      · exact hs.tracked i r' hr'
      · cases hr'
    · exact fun _ h => absurd h hwinner
    · exact fun h => absurd h hwinner
    · intro i hi
      obtain ⟨r', hmem', hfirst⟩ := hs.winner i hi
      rw [hraced, hjobs] at hfirst
      cases hfirst
      exact ⟨r, hmem', rfl⟩
    · exact fun _ _ => List.mem_append_right _ (List.mem_singleton_self _)
    · exact fun hne => absurd hresult hne
    · exact fun _ h => nomatch h
  · next hraced =>
    have hraced : s.raced ≠ none := fun h => hraced (Option.isNone_iff_eq_none.mpr h)
    refine { hs with
      hop := fun r' hr' => hs.hop r' (hmem _ hr')
      tracked := fun i r' hr' => hs.tracked i r' (hmem _ hr')
      coming := fun _ h => absurd h hwinner
      unraced := fun h => absurd h hwinner
      winner := ?_
      handed := ?_
      cleanup := fun h => hs.cleanup (hmem _ h) }
    · intro i hi
      obtain ⟨r', hmem', hfirst⟩ := hs.winner i hi
      refine ⟨r', hmem', ?_⟩
      obtain ⟨r₀, hr₀⟩ := Option.ne_none_iff_exists'.mp hraced
      dsimp only
      rw [hr₀] at hfirst ⊢
      exact hfirst
    · intro hresult hne
      have hcleanup := hs.handed hresult hne
      rw [hjobs] at hcleanup
      rcases List.mem_cons.mp hcleanup with h | h
      · cases h
      · exact h

/-- The callback of `finally` runs. -/
theorem Inv.cleans {jobs : List (Job E V)} (hjobs : s.jobs = .cleanup :: jobs) :
    (({ s with jobs } : Attempt E V).cleanup).Inv := by
  have hmem : ∀ job ∈ jobs, job ∈ s.jobs := fun job hjob => hjobs ▸ List.mem_cons_of_mem _ hjob
  have hraced : s.raced ≠ none := hs.cleanup (hjobs ▸ List.mem_cons_self)
  have hwinner : s.winnerIndex ≠ none := fun h => hraced (hs.unraced h).1
  have hlength : (({ s with jobs } : Attempt E V).cleanup).requestLegs.length = s.requestLegs.length := by
    unfold Attempt.cleanup
    dsimp only
    split
    · exact List.length_mapIdx
    · rfl
  constructor
  · intro p hp
    rw [hlength]
    exact hs.known p hp
  · exact hs.once
  · exact fun r hr => hs.hop r (hmem _ hr)
  · exact fun i r hr => hs.tracked i r (hmem _ hr)
  · exact fun _ h => absurd h hwinner
  · exact fun h => absurd h hwinner
  · intro i hi
    obtain ⟨r, hsettled, hfirst⟩ := hs.winner i hi
    rw [hjobs] at hfirst
    exact ⟨r, hsettled, hfirst⟩
  · exact fun h => absurd h hraced
  · refine fun _ => ⟨rfl, ?_⟩
    show (if s.hedge = .armed then Hedge.cleared else s.hedge) ≠ .armed
    split
    · exact fun h => nomatch h
    · next h => exact h
  · exact fun _ => hraced
  · intro i hi
    refine ⟨fun hwin => ?_, hraced⟩
    have hwin : s.winnerIndex = some i := hwin
    have hbefore : s.requestLegs[i]? = some (some true) := by
      have hi : (if s.hedge = .launched then s.requestLegs.mapIdx fun i controller =>
          if s.winnerIndex = some i then controller else controller.map fun _ => true
        else s.requestLegs)[i]? = some (some true) := hi
      split at hi
      · simpa only [List.getElem?_mapIdx, if_pos hwin, Option.map_id'] using hi
      · exact hi
    exact (hs.signals i hbefore).1 hwin
  · rw [hlength, hs.legs]
    show _ = if (if s.hedge = .armed then Hedge.cleared else s.hedge) = .launched then 2 else 1
    by_cases h : s.hedge = .armed
    · rw [if_pos h, h]
      rfl
    · rw [if_neg h]

theorem Inv.step (e : AttemptEvent E V) : (s.step e).Inv := by
  cases e with
  | hedgeTimer => exact hs.launch
  | settle i r => exact hs.settle i r
  | microtask =>
    show (match s.jobs with
      | [] => s
      | job :: jobs => ({ s with jobs } : Attempt E V).runJob job).Inv
    split
    · exact hs
    · next job jobs hjobs =>
      cases job with
      | hop r => exact hs.hopped hjobs
      | tracked i r => exact hs.tracks hjobs
      | race r => exact hs.races hjobs
      | cleanup => exact hs.cleans hjobs

/-! ## The result -/

/-- What a step leaves: but for the `finally` callback, which hands on the race, the result;
and what has settled. -/
theorem step_cases (e : AttemptEvent E V) :
    (∃ more, (s.step e).settled = s.settled ++ more) ∧
      ((∃ jobs, e = .microtask ∧ s.jobs = .cleanup :: jobs) ∧ (s.step e).result = s.raced ∧
          (s.step e).requestLegs.length = s.requestLegs.length ∨
        ¬ (∃ jobs, e = .microtask ∧ s.jobs = .cleanup :: jobs) ∧ (s.step e).result = s.result ∧
          (s.result ≠ none → (s.step e).requestLegs = s.requestLegs)) := by
  cases e with
  | hedgeTimer =>
    refine ⟨⟨[], ?_⟩, Or.inr ⟨fun ⟨_, h, _⟩ => (nomatch h), ?_, fun hresult => ?_⟩⟩
    · rw [List.append_nil]
      show s.launch.settled = s.settled
      unfold Attempt.launch
      split <;> rfl
    · show s.launch.result = s.result
      unfold Attempt.launch
      split <;> rfl
    · show s.launch.requestLegs = s.requestLegs
      unfold Attempt.launch
      rw [if_neg fun h => (hs.result hresult).2 h.1]
  | settle i r =>
    refine ⟨?_, Or.inr ⟨fun ⟨_, h, _⟩ => (nomatch h), ?_, fun _ => ?_⟩⟩
    · show ∃ more, (s.settle i r).settled = s.settled ++ more
      unfold Attempt.settle
      split
      · exact ⟨_, rfl⟩
      · exact ⟨[], (List.append_nil _).symm⟩
    · show (s.settle i r).result = s.result
      unfold Attempt.settle
      split <;> rfl
    · show (s.settle i r).requestLegs = s.requestLegs
      unfold Attempt.settle
      split <;> rfl
  | microtask =>
    cases hjobs : s.jobs with
    | nil =>
      have hstep : s.step .microtask = s := by
        unfold Attempt.step
        rw [hjobs]
      rw [hstep]
      exact ⟨⟨[], (List.append_nil _).symm⟩, Or.inr ⟨fun ⟨_, _, h⟩ => (nomatch h), rfl, fun _ => rfl⟩⟩
    | cons job jobs =>
      have hstep : s.step .microtask = ({ s with jobs } : Attempt E V).runJob job := by
        unfold Attempt.step
        rw [hjobs]
      rw [hstep]
      refine ⟨⟨[], ?_⟩, ?_⟩
      · rw [List.append_nil]
        cases job with
        | race r =>
          unfold runJob
          dsimp only
          split <;> rfl
        | _ => rfl
      · cases job with
        | cleanup =>
          refine Or.inl ⟨⟨jobs, rfl, rfl⟩, rfl, ?_⟩
          show (if s.hedge = .launched then s.requestLegs.mapIdx _ else s.requestLegs).length = _
          split
          · exact List.length_mapIdx
          · rfl
        | race r =>
          refine Or.inr ⟨fun ⟨_, _, h⟩ => (nomatch h), ?_, fun _ => ?_⟩
          · unfold runJob
            dsimp only
            split <;> rfl
          · unfold runJob
            dsimp only
            split <;> rfl
        | hop r | tracked i r => exact Or.inr ⟨fun ⟨_, _, h⟩ => (nomatch h), rfl, fun _ => rfl⟩

end

theorem firstSuccess_append {s s' : Attempt E V} {more : List (ℕ × Except E V)}
    (h : s'.settled = s.settled ++ more) {v : V} (hv : s.firstSuccess = some v) :
    s'.firstSuccess = some v := by
  unfold firstSuccess at hv ⊢
  rw [h, List.findSome?_append, hv]
  rfl

theorem AllFailed.append {s s' : Attempt E V} {more : List (ℕ × Except E V)}
    (h : s'.settled = s.settled ++ more) (hlegs : s'.requestLegs.length = s.requestLegs.length)
    (hs : s.AllFailed) : s'.AllFailed := by
  intro i hi
  obtain ⟨x, hx⟩ := hs i (hlegs ▸ hi)
  exact ⟨x, h ▸ List.mem_append_left more hx⟩

/-- Where all copies have failed, none has succeeded. -/
theorem AllFailed.firstSuccess (hs : s.Inv) (h : s.AllFailed) : s.firstSuccess = none := by
  refine List.findSome?_eq_none_iff.mpr fun p hp => ?_
  obtain ⟨i, r⟩ := p
  obtain ⟨x, hx⟩ := h i (hs.known _ hp)
  obtain rfl : r = .error x := by
    have hsame := List.inj_on_of_nodup_map hs.once hp hx rfl
    exact (Prod.mk.inj hsame).2
  rfl

/-- What resolves and rejects as it should gives a copy's success its due. -/
theorem firstWins_of (hs : s.Inv) (hresolves : ∀ v, s.result = some (.ok v) → s.firstSuccess = some v)
    (hrejects : ∀ x, s.result = some (.error x) → s.AllFailed) : s.FirstWins where
  resolves := hresolves
  rejects := hrejects
  succeeds := by
    intro hjobs v hv
    have hsettled : s.settled ≠ [] := by
      intro h
      rw [firstSuccess, h] at hv
      cases hv
    have hwinner : s.winnerIndex ≠ none := by
      intro h
      obtain ⟨job, hjob, -⟩ := hs.coming hsettled h
      rw [hjobs] at hjob
      cases hjob
    obtain ⟨i, hi⟩ := Option.ne_none_iff_exists'.mp hwinner
    obtain ⟨r, -, hr⟩ := hs.winner i hi
    rw [hjobs] at hr
    have hraced : s.raced = some r := by simpa using hr
    have hresult : s.result ≠ none := by
      intro h
      have hcleanup := hs.handed h (hraced ▸ Option.some_ne_none r)
      rw [hjobs] at hcleanup
      cases hcleanup
    have hhanded := (hs.result hresult).1.trans hraced
    cases r with
    | ok w =>
      have hw := hresolves w hhanded
      rw [hv] at hw
      cases hw
      exact hhanded
    | error x =>
      rw [AllFailed.firstSuccess hs (hrejects x hhanded)] at hv
      cases hv
  signal := by
    intro r hr
    have hresult : s.result ≠ none := hr ▸ Option.some_ne_none r
    have hraced : s.raced = some r := (hs.result hresult).1.symm.trans hr
    have hwinner : s.winnerIndex ≠ none := by
      intro h
      rw [(hs.unraced h).1] at hraced
      cases hraced
    obtain ⟨i, hi⟩ := Option.ne_none_iff_exists'.mp hwinner
    obtain ⟨r', hmem, hr'⟩ := hs.winner i hi
    rw [hraced] at hr'
    cases hr'
    exact ⟨i, hi, hmem, fun haborted => (hs.signals i haborted).1 hi⟩

theorem step_firstWins (hs : s.Inv) (h : s.FirstWins) (e : AttemptEvent E V) :
    (s.step e).FirstWins ↔ s.HandsOn e := by
  obtain ⟨⟨more, hmore⟩, hcleans | hstays⟩ := step_cases hs e
  · obtain ⟨⟨jobs, rfl, hjobs⟩, hresult, hlegs⟩ := hcleans
    have hsame : (s.step .microtask).settled = s.settled := by
      unfold Attempt.step
      rw [hjobs]
      rfl
    have hfirst : (s.step .microtask).firstSuccess = s.firstSuccess := by
      unfold Attempt.firstSuccess
      rw [hsame]
    have hfailed : (s.step .microtask).AllFailed ↔ s.AllFailed := by
      unfold Attempt.AllFailed
      rw [hsame, hlegs]
    constructor
    · intro hwins _
      refine ⟨fun v hv => ?_, fun x hx => ?_⟩
      · exact hfirst ▸ hwins.resolves v (hresult.trans hv)
      · exact hfailed.mp (hwins.rejects x (hresult.trans hx))
    · intro hhands
      obtain ⟨hok, herror⟩ := hhands ⟨jobs, hjobs⟩
      refine firstWins_of (hs.step _) (fun v hv => ?_) fun x hx => ?_
      · rw [hfirst]
        exact hok v (hresult.symm.trans hv)
      · exact hfailed.mpr (herror x (hresult.symm.trans hx))
  · obtain ⟨hnot, hresult, hlegs⟩ := hstays
    refine iff_of_true (firstWins_of (hs.step _) (fun v hv => ?_) fun x hx => ?_) ?_
    · exact firstSuccess_append hmore (h.resolves v (hresult.symm.trans hv))
    · have hx := hresult.symm.trans hx
      exact (h.rejects x hx).append hmore (congrArg _ (hlegs (hx ▸ Option.some_ne_none _)))
    · cases e with
      | hedgeTimer | settle => exact trivial
      | microtask => exact fun ⟨jobs, hjobs⟩ => absurd ⟨jobs, rfl, hjobs⟩ hnot

end

end Attempt

end PerformanceHelpers.PowerRetry
