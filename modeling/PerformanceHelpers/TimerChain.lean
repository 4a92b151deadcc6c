import Mathlib.Data.List.Basic

/- A timeout that is kept in one field, and chains of them.

   `running` are the timeouts that have been set and neither fired nor been cleared, `handle` is the
   one the field holds: setting a timeout overwrites the handle, and a timeout whose handle is gone
   cannot be cleared any more. A chain is a timeout whose callback sets it again; between the two, the
   callback itself is what is left of the chain (a tick). A chain that is only started while it is
   `live`, and only when nothing is left of it, is never two. -/
namespace PerformanceHelpers

structure Timer where
  running : List ℕ
  handle : Option ℕ
  deriving DecidableEq

namespace Timer

def idle : Timer := ⟨[], none⟩

def set (t : Timer) (id : ℕ) : Timer := ⟨t.running ++ [id], some id⟩

def clear (t : Timer) : Timer :=
  match t.handle with
  | none => t
  | some id => ⟨t.running.filter fun id' => !decide (id' = id), none⟩

/-- The timeout fires; its callback drops the handle, whichever that is. -/
def fire (t : Timer) (id : ℕ) : Timer := ⟨t.running.filter fun id' => !decide (id' = id), none⟩

end Timer

/-- A chain with some ticks under way, that is only `live` at times. -/
structure Chain (t : Timer) (ticks : ℕ) (live : Prop) : Prop where
  held : t.running = t.handle.toList
  idle : ¬live → t.running = []
  one : t.running.length + ticks ≤ 1

namespace Chain
variable {t : Timer} {ticks id : ℕ} {live live' : Prop}

theorem new (live : Prop) : Chain Timer.idle 0 live := ⟨rfl, fun _ => rfl, Nat.zero_le 1⟩

/-- A chain of which no timeout runs may be live or not. -/
theorem of_nil (h : Chain t ticks live) (hnil : t.running = []) (live' : Prop) : Chain t ticks live' :=
  ⟨h.held, fun _ => hnil, h.one⟩

theorem clear_running (h : Chain t ticks live) : t.clear.running = [] := by
  have hheld := h.held
  unfold Timer.clear
  cases hh : t.handle with
  | none =>
    rw [hh] at hheld
    exact hheld
  | some id =>
    rw [hh] at hheld
    dsimp only
    rw [hheld]
    simp

theorem clear (h : Chain t ticks live) (live' : Prop) : Chain t.clear ticks live' := by
  have hnil := h.clear_running
  refine ⟨?_, fun _ => hnil, ?_⟩
  · rw [hnil]
    unfold Timer.clear
    cases hh : t.handle with
    | none =>
      dsimp only
      rw [hh]
      rfl
    | some id => rfl
  · have hone := h.one
    rw [hnil, List.length_nil]
    omega

/-- While a tick is under way no timeout runs, and no other tick is. -/
theorem of_tick (h : Chain t (ticks + 1) live) : t.running = [] ∧ ticks = 0 := by
  have hone := h.one
  exact ⟨List.eq_nil_of_length_eq_zero (by omega), by omega⟩

theorem drop_tick (h : Chain t (ticks + 1) live) (live' : Prop) : Chain t ticks live' := by
  obtain ⟨hnil, hzero⟩ := h.of_tick
  refine ⟨h.held, fun _ => hnil, ?_⟩
  rw [hnil, hzero]
  exact Nat.zero_le 1

theorem fire_running (h : Chain t ticks live) (hid : id ∈ t.running) : (t.fire id).running = [] := by
  have hheld := h.held
  cases hh : t.handle with
  | none =>
    rw [hheld, hh] at hid
    exact absurd hid List.not_mem_nil
  | some id' =>
    rw [hheld, hh] at hid
    obtain rfl := List.mem_singleton.mp hid
    show t.running.filter _ = []
    rw [hheld, hh]
    simp

theorem fire (h : Chain t 0 live) (hid : id ∈ t.running) (ticks' : ℕ) (hticks : ticks' ≤ 1) (live' : Prop) :
    Chain (t.fire id) ticks' live' := by
  have hnil := h.fire_running hid
  refine ⟨hnil, fun _ => hnil, ?_⟩
  rw [hnil, List.length_nil]
  omega

/-- The chain starts, or goes on, when nothing is left of it. -/
theorem set (hnil : t.running = []) (hlive : live) : Chain (t.set id) 0 live := by
  have hrunning : (t.set id).running = [id] := by
    show t.running ++ [id] = [id]
    rw [hnil]
    rfl
  refine ⟨hrunning, fun hnot => absurd hlive hnot, ?_⟩
  rw [hrunning]
  exact Nat.le_refl 1

end Chain

/-- At most one place of a list satisfies `p`. -/
theorem length_filter_le_one {α : Type*} {p : α → Bool} {l : List α}
    (h : ∀ (i j : ℕ) (a b : α), l[i]? = some a → l[j]? = some b → p a = true → p b = true → i = j) :
    (l.filter p).length ≤ 1 := by
  induction l with
  | nil => exact Nat.zero_le 1
  | cons x l ih =>
    by_cases hx : p x = true
    · have hnone : l.filter p = [] := by
        rw [List.filter_eq_nil_iff]
        intro a ha hpa
        obtain ⟨j, hj⟩ := List.mem_iff_getElem?.mp ha
        have hij := h 0 (j + 1) x a rfl hj hx hpa
        omega
      rw [List.filter_cons_of_pos hx, hnone]
      exact Nat.le_refl 1
    · rw [List.filter_cons_of_neg hx]
      apply ih
      intro i j a b ha hb hpa hpb
      have hij := h (i + 1) (j + 1) a b ha hb hpa hpb
      omega

end PerformanceHelpers
