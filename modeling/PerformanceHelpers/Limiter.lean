import Mathlib.Data.Rat.Floor
import PerformanceHelpers.Number
import PerformanceHelpers.Run

/- What the rate limiters share.

   A limiter is asked for a number of units at a reading of its clock (the injected clock,
   the one handed to the call, or `monoMs`, in the order of `resolveLimiterNow`): the reading
   is part of the call. `unitsAt` counts what was admitted at the readings of a span. -/
namespace PerformanceHelpers

/-- `assertCount`: a count that cannot be priced is refused, a fraction is floored and a
negative count is none. -/
def assertCount (value : Number) (className method : String) : Except String ℕ :=
  match value with
  | .finite q => .ok ⌊q⌋.toNat
  | value => .error (s!"{className}.{method}(): `n` must be a finite number (received {value}). " ++
      "A non-finite request count is not zero work - it is a request whose " ++
      "cost cannot be computed, and a limiter that cannot price a request " ++
      "must not admit it.")

/-- The units a count comes to. -/
def units (n : Number) : ℕ :=
  match n with
  | .finite q => ⌊q⌋.toNat
  | _ => 0

theorem units_eq {n : Number} {className method : String} {count : ℕ}
    (h : assertCount n className method = .ok count) : units n = count := by
  cases n with
  | finite q => exact Except.ok.inj h
  | _ => cases h

theorem assertCount_nat (count : ℕ) (className method : String) :
    assertCount (.finite count) className method = .ok count := by
  simp [assertCount]

/-! ## What is admitted -/

/-- The units admitted at the readings that meet `p`. -/
def unitsAt (p : ℚ → Prop) [DecidablePred p] (log : List (ℚ × ℕ)) : ℕ :=
  ((log.filter fun a => p a.1).map Prod.snd).sum

section
variable {p p' : ℚ → Prop} [DecidablePred p] [DecidablePred p'] {log log' : List (ℚ × ℕ)}

@[simp] theorem unitsAt_nil : unitsAt p [] = 0 := rfl

theorem unitsAt_append : unitsAt p (log ++ log') = unitsAt p log + unitsAt p log' := by
  simp [unitsAt]

theorem unitsAt_single (t : ℚ) (n : ℕ) : unitsAt p [(t, n)] = if p t then n else 0 := by
  by_cases h : p t <;> simp [unitsAt, h]

def stamps (log : List (ℚ × ℕ)) : List ℚ := log.flatMap fun a => List.replicate a.2 a.1

theorem stamps_append : stamps (log ++ log') = stamps log ++ stamps log' := List.flatMap_append

theorem stamps_single (t : ℚ) (n : ℕ) : stamps [(t, n)] = List.replicate n t := by simp [stamps]

theorem unitsAt_eq_countP : unitsAt p log = (stamps log).countP fun t => p t := by
  induction log with
  | nil => rfl
  | cons a log ih =>
    have hcons : a :: log = [a] ++ log := rfl
    rw [hcons, unitsAt_append, stamps_append, List.countP_append, ih, unitsAt_single a.1 a.2,
      stamps_single, List.countP_replicate]
    simp

end

section
variable {σ ε : Type*} (call : σ → ε → σ × Option (ℚ × ℕ))

/-- A limiter, with what it has admitted so far and when. -/
def logged (s : σ × List (ℚ × ℕ)) (e : ε) : σ × List (ℚ × ℕ) :=
  ((call s.1 e).1, s.2 ++ (call s.1 e).2.toList)


end

end PerformanceHelpers
