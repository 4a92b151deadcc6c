import Mathlib.Data.List.Basic
import Mathlib.Order.Defs.PartialOrder

/- Runs of a deterministic step function over a list of events.

   The helpers of this library are objects whose methods, callbacks and timers
   are called in some order. Each is modelled by a state `σ`, an event type `ε`
   (a call with its arguments and whatever the environment answers) and a step
   `σ → ε → σ`. What is stated of a helper is stated of every state its run
   passes through (`Always`), and the two rules below are the only inductions on
   runs: an invariant of every step is an invariant of every run, and a property
   that a step keeps exactly when a guard holds is kept by a run exactly when
   every step meets the guard. -/
namespace PerformanceHelpers

section
variable {σ ε : Type*} (step : σ → ε → σ)

/-- The state after the events `es`. -/
def run (s : σ) (es : List ε) : σ := es.foldl step s

@[simp] theorem run_nil (s : σ) : run step s [] = s := rfl

@[simp] theorem run_cons (s : σ) (e : ε) (es : List ε) :
    run step s (e :: es) = run step (step s e) es := rfl

theorem run_append (s : σ) (es es' : List ε) :
    run step s (es ++ es') = run step (run step s es) es' := List.foldl_append

/-- `P` holds in every state the run from `s` passes through, both ends included. -/
def Always (P : σ → Prop) : σ → List ε → Prop
  | s, [] => P s
  | s, e :: es => P s ∧ Always P (step s e) es

/-- Every event of the run meets `ok` in the state it is handled in. -/
def Meets (ok : σ → ε → Prop) : σ → List ε → Prop
  | _, [] => True
  | s, e :: es => ok s e ∧ Meets ok (step s e) es

instance Meets.decidable (ok : σ → ε → Prop) [∀ s e, Decidable (ok s e)] :
    ∀ (s : σ) (es : List ε), Decidable (Meets step ok s es)
  | _, [] => isTrue trivial
  | s, e :: es =>
    have := Meets.decidable ok (step s e) es
    inferInstanceAs (Decidable (ok s e ∧ Meets step ok (step s e) es))

variable {step} {P Q : σ → Prop} {ok : σ → ε → Prop}

variable {es : List ε} {s : σ} {ok' : σ → ε → Prop}

theorem Always.start (h : Always step P s es) : P s := by
  cases es with
  | nil => exact h
  | cons e es => exact h.1

theorem always_iff :
    Always step P s es ↔ ∀ pre post, es = pre ++ post → P (run step s pre) := by
  induction es generalizing s with
  | nil =>
    refine ⟨fun h pre post he => ?_, fun h => h [] [] rfl⟩
    obtain ⟨rfl, -⟩ := List.append_eq_nil_iff.mp he.symm
    exact h
  | cons e es ih =>
    constructor
    · rintro ⟨hs, hes⟩ pre post he
      cases pre with
      | nil => exact hs
      | cons e' pre =>
        obtain ⟨rfl, rfl⟩ := List.cons.inj he
        exact ih.mp hes pre post rfl
    · intro h
      refine ⟨h [] _ rfl, ih.mpr fun pre post he => ?_⟩
      exact h (e :: pre) post (by rw [he]; rfl)

/-- A property of every state of a run is a property of its last state. -/
theorem Always.last (h : Always step P s es) : P (run step s es) :=
  always_iff.mp h es [] (by simp)

theorem Always.mono (h : Always step P s es) (hPQ : ∀ s, P s → Q s) :
    Always step Q s es :=
  always_iff.mpr fun pre post he => hPQ _ (always_iff.mp h pre post he)

theorem Always.and (hP : Always step P s es) (hQ : Always step Q s es) :
    Always step (fun s => P s ∧ Q s) s es :=
  always_iff.mpr fun pre post he => ⟨always_iff.mp hP pre post he, always_iff.mp hQ pre post he⟩

/-- Under what guarded steps keep, one guard gives another. -/
theorem Meets.imp (h : Meets step ok s es)
    (hstep : ∀ s e, P s → ok s e → P (step s e)) (hok : ∀ s e, P s → ok s e → ok' s e)
    (hs : P s) : Meets step ok' s es := by
  induction es generalizing s with
  | nil => trivial
  | cons e es ih => exact ⟨hok s e hs h.1, ih h.2 (hstep s e hs h.1)⟩

/-- Two guards that are met are met together. -/
theorem Meets.and (h : Meets step ok s es)
    (h' : Meets step ok' s es) : Meets step (fun s e => ok s e ∧ ok' s e) s es := by
  induction es generalizing s with
  | nil => trivial
  | cons e es ih => exact ⟨⟨h.1, h'.1⟩, ih h.2 h'.2⟩

/-- The steps of a part of a state are guarded as the steps of the whole. -/
theorem Meets.of_part {σ' : Type*} {step' : σ' → ε → σ'} (part : σ' → σ)
    (hpart : ∀ s e, part (step' s e) = step (part s) e) {s : σ'}
    (h : Meets step ok (part s) es) : Meets step' (fun s e => ok (part s) e) s es := by
  induction es generalizing s with
  | nil => trivial
  | cons e es ih => exact ⟨h.1, ih (hpart s e ▸ h.2)⟩

/-- Under an invariant `Q`, two guards that agree on every step agree on runs. -/
theorem meets_iff_meets (hQ : ∀ s e, Q s → Q (step s e))
    (hok : ∀ s e, Q s → (ok s e ↔ ok' s e)) (hs : Q s) :
    Meets step ok s es ↔ Meets step ok' s es := by
  induction es generalizing s with
  | nil => exact Iff.rfl
  | cons e es ih => exact and_congr (hok s e hs) (ih (hQ s e hs))

/-- The guarded invariant rule: what every guarded step keeps, every guarded
run keeps. -/
theorem always_of_meets (hstep : ∀ s e, P s → ok s e → P (step s e))
    (hs : P s) (hok : Meets step ok s es) : Always step P s es := by
  induction es generalizing s with
  | nil => exact hs
  | cons e es ih => exact ⟨hs, ih (hstep s e hs hok.1) hok.2⟩

/-- On a clock that does not go back, every event comes when the state is not ahead of it:
`upTo s t` says that `s` is not ahead of the reading `t`. -/
theorem meets_of_clock {τ : Type*} [Preorder τ] (reading : ε → τ) (upTo : σ → τ → Prop)
    (hmono : ∀ s t t', upTo s t → t ≤ t' → upTo s t')
    (hstep : ∀ s e, P s → upTo s (reading e) → P (step s e) ∧ upTo (step s e) (reading e))
    (hP : P s) (hs : ∀ e ∈ es, upTo s (reading e))
    (hclock : (es.map reading).Pairwise (· ≤ ·)) :
    Meets step (fun s e => upTo s (reading e)) s es := by
  induction es generalizing s with
  | nil => trivial
  | cons e es ih =>
    obtain ⟨hfirst, hrest⟩ := List.pairwise_cons.mp hclock
    have hs' : upTo s (reading e) := hs e List.mem_cons_self
    obtain ⟨hP', hupTo⟩ := hstep s e hP hs'
    refine ⟨hs', ih hP' (fun e' he' => hmono _ _ _ hupTo ?_) hrest⟩
    exact hfirst _ (List.mem_map_of_mem he')

/-- The invariant rule: what every step keeps, every run keeps. -/
theorem always_of_step (hstep : ∀ s e, P s → P (step s e)) (hs : P s) (es : List ε) :
    Always step P s es := by
  induction es generalizing s with
  | nil => exact hs
  | cons e es ih => exact ⟨hs, ih (hstep s e hs)⟩

/-- The exactness rule for an invariant that only guarded steps keep: if it gives `P`, and a step
that misses the guard loses `P`, a run keeps `P` exactly when all its steps meet the guard. -/
theorem always_iff_meets_of {I : σ → Prop} (hP : ∀ s, I s → P s)
    (hstep : ∀ s e, I s → ok s e → I (step s e)) (hlost : ∀ s e, I s → P (step s e) → ok s e)
    (hs : I s) : Always step P s es ↔ Meets step ok s es := by
  refine ⟨fun h => ?_, fun h => (always_of_meets hstep hs h).mono hP⟩
  induction es generalizing s with
  | nil => trivial
  | cons e es ih =>
    have hok : ok s e := hlost s e hs h.2.start
    exact ⟨hok, ih (hstep s e hs hok) h.2⟩

/-- What an invariant gives of every event is met in every run. -/
theorem meets_of_step (hstep : ∀ s e, P s → P (step s e)) (hok : ∀ s e, P s → ok s e)
    (hs : P s) (es : List ε) : Meets step ok s es := by
  induction es generalizing s with
  | nil => trivial
  | cons e es ih => exact ⟨hok s e hs, ih (hstep s e hs)⟩

/-- The exactness rule: under an invariant `Q`, if each step keeps `P` exactly
when it meets the guard, a run keeps `P` exactly when all its steps do. -/
theorem always_iff_meets (hQ : ∀ s e, Q s → Q (step s e))
    (hstep : ∀ s e, Q s → P s → (P (step s e) ↔ ok s e))
    (hs : Q s) (hP : P s) : Always step P s es ↔ Meets step ok s es := by
  induction es generalizing s with
  | nil => exact ⟨fun _ => trivial, fun _ => hP⟩
  | cons e es ih =>
    constructor
    · rintro ⟨-, hes⟩
      have hok : ok s e := (hstep s e hs hP).mp hes.start
      exact ⟨hok, (ih (hQ s e hs) hes.start).mp hes⟩
    · rintro ⟨hok, hes⟩
      have hP' : P (step s e) := (hstep s e hs hP).mpr hok
      exact ⟨hP, (ih (hQ s e hs) hP').mpr hes⟩

end

section
variable {σ ε α : Type*} (call : σ → ε → σ × α)

/-- What the calls of a run answer, one after the other. -/
def answers : σ → List ε → List α
  | _, [] => []
  | s, e :: es => (call s e).2 :: answers (call s e).1 es

/-- Two states answer a run alike when they are alike at its first reading and every call
answers alike and leaves them alike: `alike t s s'` is likeness from the reading `t` on. A call
takes its readings between `first` and `last`. -/
theorem answers_eq {τ : Type*} [Preorder τ] (first last : ε → τ) {alike : τ → σ → σ → Prop}
    (hmono : ∀ s s' t t', alike t s s' → t ≤ t' → alike t' s s')
    (hcall : ∀ s s' e, alike (first e) s s' → first e ≤ last e → (call s e).2 = (call s' e).2 ∧
      alike (last e) (call s e).1 (call s' e).1)
    {s s' : σ} {es : List ε} (hs : ∀ e ∈ es, alike (first e) s s')
    (hlast : ∀ e ∈ es, first e ≤ last e) (hclock : es.Pairwise fun e e' => last e ≤ first e') :
    answers call s es = answers call s' es := by
  induction es generalizing s s' with
  | nil => rfl
  | cons e es ih =>
    obtain ⟨hrest, hclock⟩ := List.pairwise_cons.mp hclock
    obtain ⟨hanswer, halike⟩ := hcall s s' e (hs e List.mem_cons_self) (hlast e List.mem_cons_self)
    rw [answers, answers, hanswer]
    congr 1
    apply ih
    · exact fun e' he' => hmono _ _ _ _ halike (hrest e' he')
    · exact fun e' he' => hlast e' (List.mem_cons_of_mem _ he')
    · exact hclock

theorem run_alike {τ : Type*} [Preorder τ] (first last : ε → τ) {alike : τ → σ → σ → Prop}
    (hmono : ∀ s s' t t', alike t s s' → t ≤ t' → alike t' s s')
    (hcall : ∀ s s' e, alike (first e) s s' → first e ≤ last e →
      alike (last e) (call s e).1 (call s' e).1)
    {s s' : σ} {es : List ε} {t : τ} (hs : ∀ e ∈ es, alike (first e) s s') (ht : alike t s s')
    (hlast : ∀ e ∈ es, first e ≤ last e ∧ last e ≤ t)
    (hclock : es.Pairwise fun e e' => last e ≤ first e') :
    alike t (run (fun s e => (call s e).1) s es) (run (fun s e => (call s e).1) s' es) := by
  induction es generalizing s s' with
  | nil => exact ht
  | cons e es ih =>
    obtain ⟨hrest, hclock⟩ := List.pairwise_cons.mp hclock
    obtain ⟨hle, hle'⟩ := hlast e List.mem_cons_self
    have halike := hcall s s' e (hs e List.mem_cons_self) hle
    apply ih
    · exact fun e' he' => hmono _ _ _ _ halike (hrest e' he')
    · exact hmono _ _ _ _ halike hle'
    · exact fun e' he' => hlast e' (List.mem_cons_of_mem _ he')
    · exact hclock

end

end PerformanceHelpers
