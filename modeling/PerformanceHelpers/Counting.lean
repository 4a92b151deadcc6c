import Mathlib.Algebra.GroupWithZero.Nat
import Mathlib.Data.List.Sort

/- Values of a list, counted and ranked.

   `ranked xs` are the values in ascending order. The value at a place of it is the one that has no
   more values below it than the place says, and more up to it (`countP_lt_ranked`,
   `lt_countP_le_ranked`); so two counts tell where a value stands, and no list has to be sorted to
   know it. -/
namespace PerformanceHelpers

section
variable {α β : Type*} {xs : List α} {p q r : α → Bool}

/-- What two predicates that exclude each other hold of. -/
theorem countP_or (hr : ∀ x ∈ xs, r x = (p x || q x)) (hpq : ∀ x ∈ xs, p x = true → q x = false) :
    xs.countP r = xs.countP p + xs.countP q := by
  induction xs with
  | nil => rfl
  | cons x xs ih =>
    have hrest := ih (fun y hy => hr y (List.mem_cons_of_mem _ hy)) fun y hy => hpq y (List.mem_cons_of_mem _ hy)
    have hhead := hpq x List.mem_cons_self
    rw [List.countP_cons, List.countP_cons, List.countP_cons, hrest, hr x List.mem_cons_self]
    cases hp : p x with
    | true =>
      rw [hhead hp]
      simp only [Bool.true_or, if_true, Bool.false_eq_true, if_false]
      omega
    | false =>
      simp only [Bool.false_or, Bool.false_eq_true, if_false]
      omega

/-- The values over some keys are those over each key. -/
theorem sum_countP_eq [DecidableEq β] (f : α → β) (p : α → Bool) {keys : List β} (hkeys : keys.Nodup) :
    (keys.map fun k => xs.countP fun x => p x && decide (f x = k)).sum =
      xs.countP fun x => p x && decide (f x ∈ keys) := by
  induction keys with
  | nil => simp
  | cons k keys ih =>
    obtain ⟨hnew, hrest⟩ := List.nodup_cons.mp hkeys
    rw [List.map_cons, List.sum_cons, ih hrest]
    symm
    apply countP_or
    · intro x _
      rw [← Bool.and_or_distrib_left]
      simp only [List.mem_cons, Bool.decide_or]
    · intro x _ hx
      simp only [Bool.and_eq_true, decide_eq_true_eq] at hx
      rw [hx.2]
      simp [hnew]

end

/-! ## Ranks -/

section
variable {α : Type*} [LinearOrder α] {xs : List α} {k : ℕ} {e : α}

def ranked (xs : List α) : List α := xs.mergeSort fun a b => decide (a ≤ b)

theorem ranked_perm (xs : List α) : (ranked xs).Perm xs := List.mergeSort_perm xs _

theorem ranked_pairwise (xs : List α) : (ranked xs).Pairwise (· ≤ ·) := List.pairwise_mergeSort' (· ≤ ·) xs

theorem mem_of_ranked (he : (ranked xs)[k]? = some e) : e ∈ xs :=
  (ranked_perm xs).mem_iff.mp (List.mem_of_getElem? he)

/-- No value at a place is below one before it. -/
theorem ranked_le {j : ℕ} {d : α} (hd : (ranked xs)[j]? = some d) (he : (ranked xs)[k]? = some e) (hjk : j ≤ k) :
    d ≤ e := by
  obtain ⟨hj, rfl⟩ := List.getElem?_eq_some_iff.mp hd
  obtain ⟨hk, rfl⟩ := List.getElem?_eq_some_iff.mp he
  rcases Nat.eq_or_lt_of_le hjk with rfl | hlt
  · exact le_rfl
  · exact List.pairwise_iff_getElem.mp (ranked_pairwise xs) j k hj hk hlt

/-- No more values are below the one at a place than the place says. -/
theorem countP_lt_ranked (he : (ranked xs)[k]? = some e) : xs.countP (fun x => decide (x < e)) ≤ k := by
  rw [← (ranked_perm xs).countP_eq, ← List.take_append_drop k (ranked xs), List.countP_append]
  have hafter : ((ranked xs).drop k).countP (fun x => decide (x < e)) = 0 := by
    rw [List.countP_eq_zero]
    intro x hx
    obtain ⟨i, hi⟩ := List.mem_iff_getElem?.mp hx
    rw [List.getElem?_drop] at hi
    have hle := ranked_le he hi (by omega)
    simpa using hle
  have hbefore := List.countP_le_length (p := fun x => decide (x < e)) (l := (ranked xs).take k)
  rw [List.length_take] at hbefore
  omega

/-- More values are up to the one at a place. -/
theorem lt_countP_le_ranked (he : (ranked xs)[k]? = some e) : k < xs.countP fun x => decide (x ≤ e) := by
  rw [← (ranked_perm xs).countP_eq, ← List.take_append_drop (k + 1) (ranked xs), List.countP_append]
  obtain ⟨hk, -⟩ := List.getElem?_eq_some_iff.mp he
  have hbefore : ((ranked xs).take (k + 1)).countP (fun x => decide (x ≤ e)) = k + 1 := by
    have hall : ∀ x ∈ (ranked xs).take (k + 1), decide (x ≤ e) = true := by
      intro x hx
      obtain ⟨i, hi⟩ := List.mem_iff_getElem?.mp hx
      rw [List.getElem?_take] at hi
      split at hi
      · next hlt =>
        have hle := ranked_le hi he (by omega)
        simpa using hle
      · cases hi
    rw [List.countP_eq_length.mpr hall, List.length_take]
    omega
  omega

end

end PerformanceHelpers
