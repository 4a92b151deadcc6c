import Mathlib

/- Option validation shared by the helpers (`src/utils/options.js`).

   Options reach the model already typed: a limit is absent, infinite or a number
   of its kind. The branches of the validators that reject a value of another kind
   are therefore not reachable, and the ones that remain are below. -/
namespace PerformanceHelpers

variable {α β ε : Type} {x : Except ε α} {value : Option α} {className name : String}

theorem bind_eq_ok {f : α → Except ε β} {b : β} :
    x >>= f = .ok b ↔ ∃ a, x = .ok a ∧ f a = .ok b := by
  cases x with
  | error e => exact ⟨fun h => (nomatch h), fun ⟨_, h, _⟩ => (nomatch h)⟩
  | ok a => exact ⟨fun h => ⟨a, rfl, h⟩, fun ⟨_, h, hf⟩ => (Except.ok.inj h) ▸ hf⟩

theorem map_eq_ok {f : α → β} {b : β} :
    f <$> x = .ok b ↔ ∃ a, x = .ok a ∧ f a = b := by
  cases x with
  | error e => exact ⟨fun h => (nomatch h), fun ⟨_, h, _⟩ => (nomatch h)⟩
  | ok a => exact ⟨fun h => ⟨a, rfl, Except.ok.inj h⟩, fun ⟨_, h, hf⟩ => by cases h; rw [← hf]; rfl⟩

theorem mapError_eq_ok {ε' : Type} {f : ε → ε'} {a : α} :
    x.mapError f = .ok a ↔ x = .ok a := by
  cases x with
  | error e => exact ⟨fun h => (nomatch h), fun h => (nomatch h)⟩
  | ok b => exact ⟨fun h => congrArg _ (Except.ok.inj h), fun h => congrArg _ (Except.ok.inj h)⟩

theorem toOption_map (f : α → β) (x : Except ε α) :
    (x.map f).toOption = x.toOption.map f := by
  cases x <;> rfl

theorem toOption_mapError {ε' : Type} (f : ε → ε') (x : Except ε α) :
    (x.mapError f).toOption = x.toOption := by
  cases x <;> rfl

/-- What is equal up to what is thrown. -/
theorem toOption_eq_toOption {y : Except ε α} (h : x.toOption = y.toOption) :
    (∃ e e', x = .error e ∧ y = .error e') ∨ ∃ a, x = .ok a ∧ y = .ok a := by
  cases x with
  | error e =>
    cases y with
    | error e' => exact Or.inl ⟨e, e', rfl, rfl⟩
    | ok a => cases h
  | ok a =>
    cases y with
    | error e' => cases h
    | ok a' =>
      cases h
      exact Or.inr ⟨a, rfl, rfl⟩

/-- `assertLimitRequired` of a number with a `min` and a `fallback`. -/
def assertLimitRequired {α : Type} [LT α] [DecidableLT α] [ToString α] (value : Option α)
    (name className : String) (min fallback : α) : Except String α :=
  match value with
  | none => .ok fallback
  | some n =>
    if n < min then .error s!"{className}: `{name}` must be >= {min} (received {n})."
    else .ok n

theorem assertLimitRequired_ge [LinearOrder α] [ToString α]
    {min fallback n : α}
    (h : assertLimitRequired value name className min fallback = .ok n) (hf : min ≤ fallback) :
    min ≤ n := by
  cases value with
  | none => simpa [assertLimitRequired] using (Except.ok.inj h) ▸ hf
  | some v =>
    simp only [assertLimitRequired] at h
    split at h
    · cases h
    · cases h
      exact not_lt.mp ‹_›

theorem assertLimitRequired_eq [LT α] [DecidableLT α] [ToString α]
    {min fallback n : α}
    (h : assertLimitRequired value name className min fallback = .ok n) :
    n = value.getD fallback := by
  cases value with
  | none => exact (Except.ok.inj h).symm
  | some v =>
    simp only [assertLimitRequired] at h
    split at h
    · cases h
    · exact (Except.ok.inj h).symm

def optionalLimit {α : Type} [LT α] [DecidableLT α] [ToString α] [OfNat α 0] (value : Option α)
    (name className : String) : Except String (Option α) :=
  match value with
  | none => .ok none
  | some n => some <$> assertLimitRequired (some n) name className 0 0

theorem optionalLimit_spec [LinearOrder α] [ToString α] [OfNat α 0]
    {r : Option α}
    (h : optionalLimit value name className = .ok r) :
    (value = none → r = none) ∧ ∀ n ∈ r, 0 ≤ n := by
  cases value with
  | none => cases h; simp
  | some v =>
    obtain ⟨n, hn, rfl⟩ := map_eq_ok.mp h
    exact ⟨by simp, by simpa using assertLimitRequired_ge hn le_rfl⟩

theorem optionalLimit_eq [LT α] [DecidableLT α] [ToString α] [OfNat α 0]
    {r : Option α}
    (h : optionalLimit value name className = .ok r) : r = value := by
  cases value with
  | none => exact (Except.ok.inj h).symm
  | some v =>
    obtain ⟨n, hn, rfl⟩ := map_eq_ok.mp h
    rw [assertLimitRequired_eq hn]
    rfl

end PerformanceHelpers
