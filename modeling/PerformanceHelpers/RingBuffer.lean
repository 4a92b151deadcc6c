import Mathlib.Data.List.Basic
import Mathlib.Data.Nat.ModEq

/- Lists laid out round a ring of slots.

   A ring of `cap` slots holds a list from its head on, and goes on at slot 0 behind the
   last slot (`Laid`). What a ring buffer does to its slots is told by what it does to the
   list: a write behind the tail or in front of the head, a slot given up at either end,
   a copy into another ring, an item taken out and the ones behind it moved up. -/
namespace PerformanceHelpers.Ring

variable {α : Type*} {buffer buffer' : ℕ → Option α} {cap head : ℕ} {xs ys : List α} {x : α}

/-- `xs` lies in the slots from `head` on. -/
structure Laid (buffer : ℕ → Option α) (cap head : ℕ) (xs : List α) : Prop where
  fits : xs.length ≤ cap
  slot : ∀ i < xs.length, buffer ((head + i) % cap) = xs[i]?

theorem laid_nil : Laid buffer cap head [] := ⟨Nat.zero_le _, fun _ h => nomatch h⟩

/-- Two places of the ring are different slots. -/
theorem slot_inj {i j : ℕ} (hi : i < cap) (hj : j < cap)
    (h : (head + i) % cap = (head + j) % cap) : i = j := by
  have hmod : i % cap = j % cap := Nat.ModEq.add_left_cancel' head h
  rwa [Nat.mod_eq_of_lt hi, Nat.mod_eq_of_lt hj] at hmod

section
variable (h : Laid buffer cap head xs)
include h

/-- What is written behind the tail lengthens the list. -/
theorem Laid.append (hfits : xs.length + ys.length ≤ cap)
    (hsame : ∀ i < xs.length, buffer' ((head + i) % cap) = buffer ((head + i) % cap))
    (hnew : ∀ i < ys.length, buffer' ((head + (xs.length + i)) % cap) = ys[i]?) :
    Laid buffer' cap head (xs ++ ys) := by
  refine ⟨by rwa [List.length_append], fun i hi => ?_⟩
  rw [List.length_append] at hi
  by_cases hx : i < xs.length
  · rw [hsame i hx, h.slot i hx, List.getElem?_append_left hx]
  · obtain ⟨j, rfl⟩ := Nat.exists_eq_add_of_le (Nat.not_lt.mp hx)
    rw [hnew j (by omega), List.getElem?_append_right (Nat.le_add_right _ _), Nat.add_sub_cancel_left]

/-- What is written in front of the head lengthens it at the other end. -/
theorem Laid.prepend {head' : ℕ} (hfits : ys.length + xs.length ≤ cap)
    (hhead : ∀ i, (head' + (ys.length + i)) % cap = (head + i) % cap)
    (hsame : ∀ i < xs.length, buffer' ((head + i) % cap) = buffer ((head + i) % cap))
    (hnew : ∀ i < ys.length, buffer' ((head' + i) % cap) = ys[i]?) :
    Laid buffer' cap head' (ys ++ xs) := by
  refine ⟨by rwa [List.length_append], fun i hi => ?_⟩
  rw [List.length_append] at hi
  by_cases hy : i < ys.length
  · rw [hnew i hy, List.getElem?_append_left hy]
  · obtain ⟨j, rfl⟩ := Nat.exists_eq_add_of_le (Nat.not_lt.mp hy)
    rw [hhead j, hsame j (by omega), h.slot j (by omega),
      List.getElem?_append_right (Nat.le_add_right _ _), Nat.add_sub_cancel_left]

/-- A free slot behind the tail is none of the list's. -/
theorem Laid.concat (hfree : xs.length < cap) :
    Laid (Function.update buffer ((head + xs.length) % cap) (some x)) cap head (xs ++ [x]) := by
  have hfits : xs.length + [x].length ≤ cap := hfree
  refine h.append hfits (fun i hi => ?_) fun i hi => ?_
  · refine Function.update_of_ne (fun heq => ?_) _ _
    have := slot_inj (by omega) hfree heq
    omega
  · obtain rfl : i = 0 := by simpa using hi
    simp

/-- Nor is a free slot in front of the head. -/
theorem Laid.cons {head' : ℕ} (hfree : xs.length < cap)
    (hhead : ∀ i, (head' + (1 + i)) % cap = (head + i) % cap) :
    Laid (Function.update buffer (head' % cap) (some x)) cap head' (x :: xs) := by
  have hfits : [x].length + xs.length ≤ cap := by
    rw [List.length_singleton]
    omega
  refine h.prepend hfits hhead (fun i hi => ?_) fun i hi => ?_
  · refine Function.update_of_ne (fun heq => ?_) _ _
    rw [← hhead i] at heq
    have := slot_inj (i := 1 + i) (j := 0) (by omega) (by omega) heq
    omega
  · obtain rfl : i = 0 := by simpa using hi
    simp

end

/-- The first item, and the list without it. -/
theorem Laid.first (h : Laid buffer cap head (x :: xs)) : buffer (head % cap) = some x :=
  h.slot 0 (Nat.zero_lt_succ _)

theorem Laid.rest (h : Laid buffer cap head (x :: xs)) :
    Laid (Function.update buffer (head % cap) none) cap (head + 1) xs := by
  have hfits := h.fits
  rw [List.length_cons] at hfits
  refine ⟨by omega, fun i hi => ?_⟩
  have hslot := h.slot (i + 1) (by simpa using hi)
  rw [show head + 1 + i = head + (i + 1) by omega, Function.update_of_ne, hslot,
    List.getElem?_cons_succ]
  intro heq
  have := slot_inj (i := i + 1) (j := 0) (by omega) (by omega) heq
  omega

/-- The head may be counted round the ring. -/
theorem laid_mod : Laid buffer cap (head % cap) xs ↔ Laid buffer cap head xs := by
  have hslot : ∀ i, (head % cap + i) % cap = (head + i) % cap := fun i => Nat.mod_add_mod head cap i
  constructor
  · intro h
    exact ⟨h.fits, fun i hi => by rw [← hslot]; exact h.slot i hi⟩
  · intro h
    exact ⟨h.fits, fun i hi => by rw [hslot]; exact h.slot i hi⟩

/-- A copy into a ring of another size starts at its first slot. -/
theorem Laid.copy {cap' : ℕ} (h : Laid buffer cap head xs) (hfits : xs.length ≤ cap')
    (hcopy : ∀ i < xs.length, buffer' i = buffer ((head + i) % cap)) : Laid buffer' cap' 0 xs := by
  refine ⟨hfits, fun i hi => ?_⟩
  rw [Nat.zero_add, Nat.mod_eq_of_lt (by omega), hcopy i hi]
  exact h.slot i hi

/-- The items behind one that is taken out move up by a slot. -/
theorem Laid.erase {k : ℕ} (h : Laid buffer cap head xs) (hk : k < xs.length)
    (hbefore : ∀ i < k, buffer' ((head + i) % cap) = buffer ((head + i) % cap))
    (hbehind : ∀ i, k ≤ i → i + 1 < xs.length →
      buffer' ((head + i) % cap) = buffer ((head + (i + 1)) % cap)) :
    Laid buffer' cap head (xs.eraseIdx k) := by
  have hlength : (xs.eraseIdx k).length = xs.length - 1 := List.length_eraseIdx_of_lt hk
  have hfits := h.fits
  refine ⟨by omega, fun i hi => ?_⟩
  rw [List.getElem?_eraseIdx]
  split
  · next hik => rw [hbefore i hik, h.slot i (by omega)]
  · rw [hbehind i (by omega) (by omega), h.slot (i + 1) (by omega)]

/-- The slots of a ring hold its list and nothing else is read. -/
theorem Laid.read (h : Laid buffer cap head xs) :
    (List.range xs.length).map (fun i => buffer ((head + i) % cap)) = xs.map some := by
  refine List.ext_getElem (by simp) fun i hi _ => ?_
  have hi' : i < xs.length := by simpa using hi
  rw [List.getElem_map, List.getElem_range, h.slot i hi', List.getElem_map, List.getElem?_eq_getElem hi']

end PerformanceHelpers.Ring
