import Mathlib.Algebra.Order.Group.Nat
import Mathlib.GroupTheory.Perm.Support
import Mathlib.Order.Interval.Finset.Nat

/- Binary heaps in slots that are numbered from 1: the children of slot `i` are `2 * i` and
   `2 * i + 1`.

   A heap is compared by `better`, which is read as the order of a key: the least key is the
   best. `Ordered` says that no slot is better than its parent. A sift mends one slot:
   `siftUp` where only the edge into the slot may be wrong (`UpReady`), `siftDown` where only
   the edges out of it may be (`DownReady`), and one after the other where any of them may be
   (`Loose`). No sift changes what the slots hold. -/
namespace PerformanceHelpers.BinaryHeap
open Function (update update_of_ne)

variable {α κ : Type*}

/-- The slots `i` and `j` change places. -/
def swap (slots : ℕ → α) (i j : ℕ) : ℕ → α :=
  fun k => if k = i then slots j else if k = j then slots i else slots k

section
variable (better : α → α → Bool)

def siftUpLoop : ℕ → (ℕ → α) → ℕ → ℕ → α
  | 0, slots, _ => slots
  | turns + 1, slots, i =>
    if i ≤ 1 then slots
    else
      let parent := i / 2
      if better (slots i) (slots parent) then siftUpLoop turns (swap slots i parent) parent else slots

def siftUp (slots : ℕ → α) (i : ℕ) : ℕ → α := siftUpLoop better i slots i

def bestOf (size : ℕ) (slots : ℕ → α) (i : ℕ) : ℕ :=
  let left := 2 * i
  let right := 2 * i + 1
  let best := if left ≤ size ∧ better (slots left) (slots i) then left else i
  if right ≤ size ∧ better (slots right) (slots best) then right else best

def siftDownLoop (size : ℕ) : ℕ → (ℕ → α) → ℕ → ℕ → α
  | 0, slots, _ => slots
  | turns + 1, slots, i =>
    let best := bestOf better size slots i
    if best = i then slots else siftDownLoop size turns (swap slots i best) best

def siftDown (size : ℕ) (slots : ℕ → α) (i : ℕ) : ℕ → α := siftDownLoop better size size slots i

/-- The last of the slots that no slot up to `size` is worse than, read from the first on. -/
def worstOf (slots : ℕ → α) (size : ℕ) : ℕ :=
  (List.range' 2 (size - 1)).foldl (fun worst i => if better (slots worst) (slots i) then i else worst) 1

end

/-! ## What the slots hold -/

/-- What the slots from 1 to `size` hold. -/
def contents (size : ℕ) (slots : ℕ → α) : Multiset α := (Finset.Icc 1 size).val.map slots

section
variable {size i j : ℕ} {slots slots' : ℕ → α}

theorem swap_eq (slots : ℕ → α) (i j : ℕ) : swap slots i j = slots ∘ Equiv.swap i j := by
  funext k
  simp only [swap, Function.comp_apply, Equiv.swap_apply_def]
  split <;> [rfl; split <;> rfl]

theorem contents_swap (hi : i ∈ Finset.Icc 1 size) (hj : j ∈ Finset.Icc 1 size) :
    contents size (swap slots i j) = contents size slots := by
  have hmoved : {k | Equiv.swap i j k ≠ k} ⊆ (Finset.Icc 1 size : Set ℕ) := by
    intro k hk
    by_cases hki : k = i
    · exact hki ▸ hi
    by_cases hkj : k = j
    · exact hkj ▸ hj
    · exact absurd (Equiv.swap_apply_of_ne_of_ne hki hkj) hk
  have hperm := congrArg Finset.val (Finset.map_perm hmoved)
  rw [Finset.map_val] at hperm
  rw [contents, swap_eq, ← Multiset.map_map]
  exact congrArg (Multiset.map slots) hperm

theorem contents_congr (h : ∀ k, 1 ≤ k → k ≤ size → slots' k = slots k) :
    contents size slots' = contents size slots :=
  Multiset.map_congr rfl fun k hk => by
    obtain ⟨h1, hle⟩ := Finset.mem_Icc.mp (Finset.mem_val.mp hk)
    exact h k h1 hle

theorem contents_succ (size : ℕ) (slots : ℕ → α) :
    contents (size + 1) slots = slots (size + 1) ::ₘ contents size slots := by
  have hnot : size + 1 ∉ Finset.Icc 1 size := by simp
  have hsplit : Finset.Icc 1 (size + 1) = insert (size + 1) (Finset.Icc 1 size) := by
    ext k
    simp only [Finset.mem_Icc, Finset.mem_insert]
    omega
  rw [contents, hsplit, Finset.insert_val_of_notMem hnot, Multiset.map_cons]
  rfl

/-- The last slot fills the place of one that is taken out. -/
theorem contents_replace (hi : i ∈ Finset.Icc 1 (size + 1)) :
    contents (size + 1) slots = slots i ::ₘ contents size (update slots i (slots (size + 1))) := by
  obtain ⟨h1, hle⟩ := Finset.mem_Icc.mp hi
  rw [← contents_swap hi (Finset.mem_Icc.mpr ⟨by omega, le_rfl⟩ : size + 1 ∈ _), contents_succ]
  have hlast : swap slots i (size + 1) (size + 1) = slots i := by
    by_cases heq : size + 1 = i
    · simp [swap, heq]
    · simp [swap, heq]
  rw [hlast]
  refine congrArg _ (contents_congr fun k hk hks => ?_)
  by_cases hki : k = i
  · simp [swap, hki]
  · simp [swap, hki, show k ≠ size + 1 by omega]

theorem mem_contents {a : α} : a ∈ contents size slots ↔ ∃ k, 1 ≤ k ∧ k ≤ size ∧ slots k = a := by
  simp [contents, and_assoc]

end

/-! ## Order -/

section
variable [LinearOrder κ] {key : α → κ} {better : α → α → Bool} {size i j : ℕ} {slots : ℕ → α}

def Ordered (key : α → κ) (size : ℕ) (slots : ℕ → α) : Prop :=
  ∀ j, 2 ≤ j → j ≤ size → key (slots (j / 2)) ≤ key (slots j)

structure Loose (key : α → κ) (size : ℕ) (slots : ℕ → α) (i : ℕ) : Prop where
  apart : ∀ j, 2 ≤ j → j ≤ size → j ≠ i → j / 2 ≠ i → key (slots (j / 2)) ≤ key (slots j)
  grand : 2 ≤ i → ∀ j, 2 ≤ j → j ≤ size → j / 2 = i → key (slots (i / 2)) ≤ key (slots j)

structure UpReady (key : α → κ) (size : ℕ) (slots : ℕ → α) (i : ℕ) : Prop extends Loose key size slots i where
  below : ∀ j, 2 ≤ j → j ≤ size → j / 2 = i → key (slots i) ≤ key (slots j)

structure DownReady (key : α → κ) (size : ℕ) (slots : ℕ → α) (i : ℕ) : Prop extends Loose key size slots i where
  above : 2 ≤ i → key (slots (i / 2)) ≤ key (slots i)

theorem Ordered.upReady (h : Ordered key size slots) (hi : i ≤ size) : UpReady key size slots i where
  apart j h2 hj _ _ := h j h2 hj
  grand h2 j hj2 hj hji := (h i h2 hi).trans (hji ▸ h j hj2 hj)
  below j h2 hj hji := hji ▸ h j h2 hj

theorem UpReady.ordered (h : UpReady key size slots i) (habove : 2 ≤ i → key (slots (i / 2)) ≤ key (slots i)) :
    Ordered key size slots := by
  intro j h2 hj
  by_cases hji : j = i
  · subst hji
    exact habove h2
  by_cases hpi : j / 2 = i
  · rw [hpi]
    exact h.below j h2 hj hpi
  · exact h.apart j h2 hj hji hpi

theorem Ordered.first (h : Ordered key size slots) (h1 : 1 ≤ i) (hi : i ≤ size) :
    key (slots 1) ≤ key (slots i) := by
  induction i using Nat.strong_induction_on with
  | _ i ih =>
    by_cases hone : i = 1
    · rw [hone]
    · have hparent := ih (i / 2) (by omega) (by omega) (by omega)
      exact hparent.trans (h i (by omega) hi)

theorem swap_left : swap slots i j i = slots j := by simp [swap]

theorem swap_right : swap slots i j j = slots i := by
  by_cases h : j = i
  · simp [swap, h]
  · simp [swap, h]

theorem swap_of_ne {k : ℕ} (hi : k ≠ i) (hj : k ≠ j) : swap slots i j k = slots k := by
  simp [swap, hi, hj]

theorem UpReady.move (h : UpReady key size slots i) (h2 : 2 ≤ i) (hi : i ≤ size)
    (hlt : key (slots i) < key (slots (i / 2))) :
    UpReady key size (swap slots i (i / 2)) (i / 2) := by
  have hne : i / 2 ≠ i := by omega
  -- the slot that was the parent is above the other child, and above the slot's own
  have hup : 2 ≤ i / 2 → key (slots (i / 2 / 2)) ≤ key (slots (i / 2)) := fun hp =>
    h.apart (i / 2) hp (by omega) (by omega) (by omega)
  have hsibling : ∀ j, 2 ≤ j → j ≤ size → j ≠ i → j / 2 = i / 2 → key (slots (i / 2)) ≤ key (slots j) := by
    intro j hj2 hj hji hp
    have := h.apart j hj2 hj hji (by omega)
    rwa [hp] at this
  refine ⟨⟨fun j hj2 hj hjp hpp => ?_, fun hp2 j hj2 hj hjp => ?_⟩, fun j hj2 hj hjp => ?_⟩
  · by_cases hji : j = i
    · subst hji
      exact absurd rfl hpp
    rw [swap_of_ne hji hjp]
    by_cases hpi : j / 2 = i
    · rw [hpi, swap_left]
      exact h.grand h2 j hj2 hj hpi
    · rw [swap_of_ne hpi hpp]
      exact h.apart j hj2 hj hji hpi
  · rw [swap_of_ne (by omega) (by omega)]
    by_cases hji : j = i
    · subst hji
      rw [swap_left]
      exact hup hp2
    · rw [swap_of_ne hji (by omega)]
      exact (hup hp2).trans (hsibling j hj2 hj hji hjp)
  · rw [swap_right]
    by_cases hji : j = i
    · subst hji
      rw [swap_left]
      exact hlt.le
    · rw [swap_of_ne hji (by omega)]
      exact hlt.le.trans (hsibling j hj2 hj hji hjp)

variable (hbetter : ∀ a b, better a b = true ↔ key a < key b)
include hbetter

theorem siftUpLoop_spec {turns : ℕ} (h : UpReady key size slots i) (h1 : 1 ≤ i) (hi : i ≤ size)
    (hturns : i ≤ turns) : Ordered key size (siftUpLoop better turns slots i) ∧
      contents size (siftUpLoop better turns slots i) = contents size slots := by
  induction turns generalizing slots i with
  | zero => omega
  | succ turns ih =>
    rw [siftUpLoop]
    split
    · exact ⟨h.ordered fun h2 => by omega, rfl⟩
    · next hgt =>
      dsimp only
      split
      · next hlt =>
        have hmoved := h.move (by omega) hi ((hbetter _ _).mp hlt)
        obtain ⟨hordered, hcontents⟩ := ih hmoved (by omega) (by omega) (by omega)
        refine ⟨hordered, hcontents.trans (contents_swap ?_ ?_)⟩
        · exact Finset.mem_Icc.mpr ⟨h1, hi⟩
        · exact Finset.mem_Icc.mpr ⟨by omega, by omega⟩
      · next hge =>
        rw [hbetter, not_lt] at hge
        exact ⟨h.ordered fun _ => hge, rfl⟩

theorem siftUp_spec (h : UpReady key size slots i) (h1 : 1 ≤ i) (hi : i ≤ size) :
    Ordered key size (siftUp better slots i) ∧
      contents size (siftUp better slots i) = contents size slots :=
  siftUpLoop_spec hbetter h h1 hi le_rfl

theorem bestOf_spec (slots : ℕ → α) (hi : i ≤ size) :
    bestOf better size slots i ≤ size ∧
      (bestOf better size slots i ≠ i → bestOf better size slots i / 2 = i ∧
        key (slots (bestOf better size slots i)) < key (slots i)) ∧
      ∀ j, j ≤ size → j / 2 = i → key (slots (bestOf better size slots i)) ≤ key (slots j) := by
  unfold bestOf
  dsimp only
  generalize hbest : (if 2 * i ≤ size ∧ better (slots (2 * i)) (slots i) = true then 2 * i else i) = best
  -- the better of the slot and its left child
  have hleft : best ≤ size ∧ (best ≠ i → best = 2 * i ∧ key (slots best) < key (slots i)) ∧
      key (slots best) ≤ key (slots i) ∧ (2 * i ≤ size → key (slots best) ≤ key (slots (2 * i))) := by
    subst hbest
    split
    · next h =>
      have hlt := (hbetter _ _).mp h.2
      exact ⟨h.1, fun _ => ⟨rfl, hlt⟩, hlt.le, fun _ => le_rfl⟩
    · next h =>
      refine ⟨hi, fun hne => absurd rfl hne, le_rfl, fun hsize => ?_⟩
      by_contra hlt
      exact h ⟨hsize, (hbetter _ _).mpr (not_le.mp hlt)⟩
  obtain ⟨hsize, hmoved, hown, hchild⟩ := hleft
  split
  · next h =>
    have hlt := (hbetter _ _).mp h.2
    refine ⟨h.1, fun _ => ⟨by omega, hlt.trans_le hown⟩, fun j hj hji => ?_⟩
    have hcases : j = 2 * i ∨ j = 2 * i + 1 := by omega
    rcases hcases with rfl | rfl
    · exact hlt.le.trans (hchild hj)
    · exact le_rfl
  · next h =>
    refine ⟨hsize, fun hne => ?_, fun j hj hji => ?_⟩
    · obtain ⟨heq, hlt⟩ := hmoved hne
      exact ⟨by omega, hlt⟩
    · have hcases : j = 2 * i ∨ j = 2 * i + 1 := by omega
      rcases hcases with rfl | rfl
      · exact hchild hj
      · by_contra hlt
        exact h ⟨hj, (hbetter _ _).mpr (not_le.mp hlt)⟩

omit hbetter in
/-- The best child changes places with its parent, and only the edges out of it may be wrong. -/
theorem Loose.move (h : Loose key size slots i) (h1 : 1 ≤ i) (hj : j ≤ size) (hji : j / 2 = i)
    (hlt : key (slots j) < key (slots i))
    (hbest : ∀ k, k ≤ size → k / 2 = i → key (slots j) ≤ key (slots k)) :
    DownReady key size (swap slots i j) j := by
  refine ⟨⟨fun k hk2 hk hkj hpj => ?_, fun _ k hk2 hk hkj => ?_⟩, fun _ => ?_⟩
  · by_cases hki : k = i
    · subst hki
      rw [swap_left, swap_of_ne (by omega) (by omega)]
      exact h.grand hk2 j (by omega) hj hji
    rw [swap_of_ne hki hkj]
    by_cases hpi : k / 2 = i
    · rw [hpi, swap_left]
      exact hbest k hk hpi
    · rw [swap_of_ne hpi hpj]
      exact h.apart k hk2 hk hki hpi
  · rw [hji, swap_left, swap_of_ne (by omega) (by omega)]
    have := h.apart k hk2 hk (by omega) (by omega)
    rwa [hkj] at this
  · rw [hji, swap_left, swap_right]
    exact hlt.le

theorem siftDownLoop_spec (turns : ℕ) (h : DownReady key size slots i) (h1 : 1 ≤ i) (hi : i ≤ size)
    (hturns : size ≤ i + turns) : Ordered key size (siftDownLoop better size turns slots i) ∧
      contents size (siftDownLoop better size turns slots i) = contents size slots := by
  induction turns generalizing slots i with
  | zero =>
    -- the last slot has no children
    have hready : UpReady key size slots i := ⟨h.toLoose, fun j _ hj hji => by omega⟩
    exact ⟨hready.ordered h.above, rfl⟩
  | succ turns ih =>
    obtain ⟨hsize, hmoved, hbest⟩ := bestOf_spec hbetter slots hi
    rw [siftDownLoop]
    split
    · next heq =>
      rw [heq] at hbest
      have hready : UpReady key size slots i := ⟨h.toLoose, fun j _ hj hji => hbest j hj hji⟩
      exact ⟨hready.ordered h.above, rfl⟩
    · next hne =>
      obtain ⟨hchild, hlt⟩ := hmoved hne
      obtain ⟨hordered, hcontents⟩ := ih (h.toLoose.move h1 hsize hchild hlt hbest) (by omega) hsize (by omega)
      refine ⟨hordered, hcontents.trans (contents_swap ?_ ?_)⟩
      · exact Finset.mem_Icc.mpr ⟨h1, hi⟩
      · exact Finset.mem_Icc.mpr ⟨by omega, hsize⟩

theorem siftDown_spec (h : DownReady key size slots i) (h1 : 1 ≤ i) (hi : i ≤ size) :
    Ordered key size (siftDown better size slots i) ∧
      contents size (siftDown better size slots i) = contents size slots :=
  siftDownLoop_spec hbetter _ h h1 hi (by omega)

/-- Down and then up, whichever way the slot is out of order. -/
theorem siftDown_siftUp (h : Loose key size slots i) (h1 : 1 ≤ i) (hi : i ≤ size) :
    Ordered key size (siftUp better (siftDown better size slots i) i) ∧
      contents size (siftUp better (siftDown better size slots i) i) = contents size slots := by
  obtain ⟨hsize, hmoved, hbest⟩ := bestOf_spec hbetter slots hi
  have hdown : UpReady key size (siftDown better size slots i) i ∧
      contents size (siftDown better size slots i) = contents size slots := by
    obtain ⟨turns, rfl⟩ : ∃ turns, size = turns + 1 := ⟨size - 1, by omega⟩
    rw [siftDown, siftDownLoop]
    split
    · next heq =>
      rw [heq] at hbest
      exact ⟨⟨h, fun j _ hj hji => hbest j hj hji⟩, rfl⟩
    · next hne =>
      obtain ⟨hchild, hlt⟩ := hmoved hne
      obtain ⟨hordered, hcontents⟩ := siftDownLoop_spec hbetter turns
        (h.move h1 hsize hchild hlt hbest) (by omega) hsize (by omega)
      refine ⟨hordered.upReady hi, hcontents.trans (contents_swap ?_ ?_)⟩
      · exact Finset.mem_Icc.mpr ⟨h1, hi⟩
      · exact Finset.mem_Icc.mpr ⟨by omega, hsize⟩
  obtain ⟨hordered, hcontents⟩ := siftUp_spec hbetter hdown.1 h1 hi
  exact ⟨hordered, hcontents.trans hdown.2⟩

/-- No slot is worse than the one the scan ends on. -/
theorem worstOf_spec (slots : ℕ → α) (hpos : 1 ≤ size) :
    1 ≤ worstOf better slots size ∧ worstOf better slots size ≤ size ∧
    ∀ j, 1 ≤ j → j ≤ size → key (slots j) ≤ key (slots (worstOf better slots size)) := by
  induction size with
  | zero => omega
  | succ size ih =>
    rcases Nat.eq_zero_or_pos size with rfl | hpos'
    · refine ⟨le_rfl, le_rfl, fun j h1 hj => ?_⟩
      obtain rfl : j = 1 := by omega
      exact le_rfl
    obtain ⟨h1, hle, hall⟩ := ih hpos'
    have hnext : worstOf better slots (size + 1) = if better (slots (worstOf better slots size))
        (slots (size + 1)) then size + 1 else worstOf better slots size := by
      have hrange : List.range' 2 (size + 1 - 1) = List.range' 2 (size - 1) ++ [size + 1] := by
        rw [show size + 1 - 1 = (size - 1) + 1 by omega, List.range'_concat]
        simp only [one_mul]
        congr 2
        omega
      rw [worstOf, hrange, List.foldl_append]
      rfl
    rw [hnext]
    split
    · next hlt =>
      have hlt := (hbetter _ _).mp hlt
      refine ⟨by omega, le_rfl, fun j hj1 hj => ?_⟩
      rcases Nat.lt_or_ge j (size + 1) with hlt' | hge
      · exact (hall j hj1 (by omega)).trans hlt.le
      · obtain rfl : j = size + 1 := by omega
        exact le_rfl
    · next hge =>
      rw [hbetter, not_lt] at hge
      refine ⟨h1, by omega, fun j hj1 hj => ?_⟩
      rcases Nat.lt_or_ge j (size + 1) with hlt' | hge'
      · exact hall j hj1 (by omega)
      · obtain rfl : j = size + 1 := by omega
        exact hge

end

/-! ## A slot that changes -/

section
variable [LinearOrder κ] {key : α → κ} {size i : ℕ} {slots : ℕ → α}

theorem Ordered.push (h : Ordered key size slots) (a : α) :
    UpReady key (size + 1) (update slots (size + 1) a) (size + 1) := by
  refine ⟨⟨fun j h2 hj hne hpne => ?_, fun _ j _ hj hji => by omega⟩, fun j _ hj hji => by omega⟩
  rw [update_of_ne hne, update_of_ne hpne]
  exact h j h2 (by omega)

/-- A slot that is filled anew, where the last one is gone. -/
theorem Ordered.replace (h : Ordered key (size + 1) slots) (a : α) (hi : i ≤ size) :
    Loose key size (update slots i a) i := by
  refine ⟨fun j h2 hj hne hpne => ?_, fun h2 j hj2 hj hji => ?_⟩
  · rw [update_of_ne hne, update_of_ne hpne]
    exact h j h2 (by omega)
  · rw [update_of_ne (by omega), update_of_ne (by omega)]
    have := h j hj2 (by omega)
    rw [hji] at this
    exact (h i h2 (by omega)).trans this

theorem Ordered.pop (h : Ordered key (size + 1) slots) : Ordered key size slots :=
  fun j h2 hj => h j h2 (by omega)

/-! Slots beyond the size say nothing. -/

theorem Ordered.congr {slots' : ℕ → α} (h : Ordered key size slots)
    (heq : ∀ k, 1 ≤ k → k ≤ size → slots' k = slots k) : Ordered key size slots' := by
  intro j h2 hj
  rw [heq j (by omega) hj, heq (j / 2) (by omega) (by omega)]
  exact h j h2 hj

theorem Loose.congr {slots' : ℕ → α} (h : Loose key size slots i)
    (heq : ∀ k, 1 ≤ k → k ≤ size → slots' k = slots k) : Loose key size slots' i := by
  refine ⟨fun j h2 hj hne hpne => ?_, fun h2 j hj2 hj hji => ?_⟩
  · rw [heq j (by omega) hj, heq (j / 2) (by omega) (by omega)]
    exact h.apart j h2 hj hne hpne
  · rw [heq j (by omega) hj, heq (i / 2) (by omega) (by omega)]
    exact h.grand h2 j hj2 hj hji

end

end PerformanceHelpers.BinaryHeap
