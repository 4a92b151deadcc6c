import Mathlib.Data.List.Nodup

/- A map with its size, and lists of nodes indexed by one.

   `KeyMap` is what is used of a `Map` whose order is never read: a lookup and a
   size that `set` and `delete` keep. `Indexes m key xs` says that `m` finds
   exactly the members of `xs`, each under its own key. -/
namespace PerformanceHelpers

structure KeyMap (κ ι : Type*) where
  get : κ → Option ι
  size : ℕ

namespace KeyMap

variable {κ ι : Type*}

def empty : KeyMap κ ι := ⟨fun _ => none, 0⟩

variable [DecidableEq κ]

def set (m : KeyMap κ ι) (k : κ) (i : ι) : KeyMap κ ι :=
  ⟨Function.update m.get k (some i), if (m.get k).isSome then m.size else m.size + 1⟩

def delete (m : KeyMap κ ι) (k : κ) : KeyMap κ ι :=
  ⟨Function.update m.get k none, if (m.get k).isSome then m.size - 1 else m.size⟩

theorem delete_absent {m : KeyMap κ ι} {k : κ} (h : m.get k = none) : m.delete k = m := by
  have hget : Function.update m.get k none = m.get :=
    Function.update_eq_iff.mpr ⟨h.symm, fun _ _ => rfl⟩
  simp [delete, h, hget]

end KeyMap

/-- `m` holds exactly the members of `xs`, each under the key it has. -/
structure Indexes {κ ι : Type*} (m : KeyMap κ ι) (key : ι → Option κ) (xs : List ι) : Prop where
  get_iff : ∀ k i, m.get k = some i ↔ i ∈ xs ∧ key i = some k
  size_eq : m.size = xs.length
  keyed : ∀ i ∈ xs, ∃ k, key i = some k

namespace Indexes

variable {κ ι : Type*} {m : KeyMap κ ι} {key key' : ι → Option κ} {xs ys l r : List ι} {i j : ι}
  {k : κ}

theorem nil (key : ι → Option κ) : Indexes (KeyMap.empty (κ := κ)) key [] :=
  ⟨by simp [KeyMap.empty], rfl, by simp⟩

section
variable (h : Indexes m key xs)
include h

theorem congr (hkey : ∀ i ∈ xs, key' i = key i) : Indexes m key' xs := by
  refine ⟨fun k i => (h.get_iff k i).trans ?_, h.size_eq, fun i hi => ?_⟩
  · exact and_congr_right fun hi => by rw [hkey i hi]
  · rw [hkey i hi]
    exact h.keyed i hi

theorem perm (hp : xs.Perm ys) : Indexes m key ys :=
  ⟨fun k i => by rw [h.get_iff, hp.mem_iff], h.size_eq.trans hp.length_eq,
    fun i hi => h.keyed i (hp.mem_iff.mpr hi)⟩

theorem get_some (hi : i ∈ xs) (hk : key i = some k) : m.get k = some i :=
  (h.get_iff k i).mpr ⟨hi, hk⟩

theorem get_none (hk : m.get k = none) (hi : i ∈ xs) : key i ≠ some k :=
  fun heq => by simp [h.get_some hi heq] at hk

/-- A key names one member. -/
theorem inj (hi : i ∈ xs) (hj : j ∈ xs) (hk : key i = key j) : i = j := by
  obtain ⟨k, hik⟩ := h.keyed i hi
  have hgi := h.get_some hi hik
  rw [h.get_some hj (hk ▸ hik)] at hgi
  exact (Option.some.inj hgi).symm

end

variable [DecidableEq κ]

theorem set (h : Indexes m key xs) (hk : m.get k = none) (hi : key i = some k) :
    Indexes (m.set k i) key (xs ++ [i]) := by
  refine ⟨fun k' j => ?_, ?_, fun j hj => ?_⟩
  · by_cases hkk : k' = k
    · subst hkk
      simp only [KeyMap.set, Function.update_self, Option.some.injEq, List.mem_append,
        List.mem_singleton]
      constructor
      · rintro rfl
        exact ⟨Or.inr rfl, hi⟩
      · rintro ⟨hj | rfl, hkj⟩
        · exact absurd hkj (h.get_none hk hj)
        · rfl
    · simp only [KeyMap.set, Function.update_of_ne hkk, h.get_iff, List.mem_append,
        List.mem_singleton]
      refine and_congr_left fun hkj => ⟨Or.inl, fun hj => hj.resolve_right ?_⟩
      rintro rfl
      exact hkk (Option.some.inj (hkj.symm.trans hi))
  · simp [KeyMap.set, hk, h.size_eq]
  · rcases List.mem_append.mp hj with hj | hj
    · exact h.keyed j hj
    · obtain rfl := List.mem_singleton.mp hj
      exact ⟨k, hi⟩

theorem delete (h : Indexes m key (l ++ i :: r)) (hnd : (l ++ i :: r).Nodup)
    (hk : key i = some k) : Indexes (m.delete k) key (l ++ r) := by
  have hget := h.get_some (by simp) hk
  have hi : i ∉ l ++ r := (List.nodup_middle.mp hnd).notMem
  have hmem : ∀ j, j ∈ l ++ r ↔ j ∈ l ++ i :: r ∧ j ≠ i := by
    intro j
    constructor
    · intro hj
      refine ⟨?_, fun heq => hi (heq ▸ hj)⟩
      rcases List.mem_append.mp hj with hj | hj <;> simp [hj]
    · rintro ⟨hj, hne⟩
      simpa [hne] using hj
  refine ⟨fun k' j => ?_, ?_, fun j hj => h.keyed j ((hmem j).mp hj).1⟩
  · by_cases hkk : k' = k
    · subst hkk
      simp only [KeyMap.delete, Function.update_self, reduceCtorEq, false_iff, not_and]
      intro hj hkj
      have hj := (hmem j).mp hj
      exact hj.2 (h.inj hj.1 (by simp) (hkj.trans hk.symm))
    · simp only [KeyMap.delete, Function.update_of_ne hkk, h.get_iff, hmem]
      refine and_congr_left fun hkj => ⟨fun hj => ⟨hj, ?_⟩, fun hj => hj.1⟩
      rintro rfl
      exact hkk (Option.some.inj (hkj.symm.trans hk))
  · simp [KeyMap.delete, hget, h.size_eq]

end Indexes

end PerformanceHelpers
