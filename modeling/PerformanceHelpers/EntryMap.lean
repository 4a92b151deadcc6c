import Mathlib.Data.List.Sort

/- A map as its entries, in the order their keys were first set.

   `Tallies m f` says that a map of counts holds `f k` at each key `k` that has a count, and no
   other key: two maps that tally the same counts have the same keys, and find the same. -/
namespace PerformanceHelpers.EntryMap

section
variable {κ ν : Type*} [DecidableEq κ]

def get (k : κ) : List (κ × ν) → Option ν
  | [] => none
  | e :: m => if e.1 = k then some e.2 else get k m

/-- `set`: a key keeps its place. -/
def set (k : κ) (v : ν) : List (κ × ν) → List (κ × ν)
  | [] => [(k, v)]
  | e :: m => if e.1 = k then (k, v) :: m else e :: set k v m

def delete (k : κ) (m : List (κ × ν)) : List (κ × ν) := m.filter fun e => !decide (e.1 = k)

variable {m : List (κ × ν)} {k k' : κ} {v : ν}

theorem get_set : get k' (set k v m) = if k' = k then some v else get k' m := by
  induction m with
  | nil => simp [set, get, eq_comm]
  | cons e m ih =>
    by_cases he : e.1 = k
    · rw [set, if_pos he]
      by_cases hk : k' = k
      · simp [get, hk]
      · have hk' : ¬k = k' := fun h => hk h.symm
        simp [get, he, hk, hk']
    · rw [set, if_neg he, get, get, ih]
      by_cases hk : k' = k
      · subst hk
        simp [he]
      · simp [hk]

theorem get_delete : get k' (delete k m) = if k' = k then none else get k' m := by
  induction m with
  | nil => simp [delete, get]
  | cons e m ih =>
    unfold delete at ih ⊢
    by_cases he : e.1 = k
    · rw [List.filter_cons_of_neg (by simpa using he), ih, get]
      by_cases hk : k' = k
      · rw [if_pos hk, if_pos hk]
      · rw [if_neg hk, if_neg hk, if_neg fun h => hk (h.symm.trans he)]
    · rw [List.filter_cons_of_pos (by simpa using he), get, get, ih]
      by_cases hk : k' = k
      · rw [if_pos hk, if_pos hk, if_neg fun h => he (h.trans hk)]
      · rw [if_neg hk, if_neg hk]

theorem delete_keys : (delete k m).map Prod.fst = (m.map Prod.fst).filter fun k' => !decide (k' = k) := by
  rw [List.filter_map]
  rfl

theorem mem_keys : k ∈ m.map Prod.fst ↔ (get k m).isSome := by
  induction m with
  | nil => simp [get]
  | cons e m ih =>
    rw [List.map_cons, List.mem_cons, ih, get]
    split
    · next he => simp [he]
    · next he =>
      have he' : ¬k = e.1 := fun h => he h.symm
      simp [he']

theorem nodup_set (h : (m.map Prod.fst).Nodup) : ((set k v m).map Prod.fst).Nodup := by
  induction m with
  | nil => simp [set]
  | cons e m ih =>
    obtain ⟨hnew, hrest⟩ := List.nodup_cons.mp (by simpa using h : (e.1 :: m.map Prod.fst).Nodup)
    rw [set]
    split
    · next he =>
      rw [List.map_cons, List.nodup_cons]
      exact ⟨he ▸ hnew, hrest⟩
    · next he =>
      rw [List.map_cons, List.nodup_cons]
      refine ⟨fun hmem => hnew ?_, ih hrest⟩
      rw [mem_keys, get_set, if_neg he] at hmem
      exact mem_keys.mpr hmem

theorem get_of_mem (h : (m.map Prod.fst).Nodup) {e : κ × ν} (he : e ∈ m) : get e.1 m = some e.2 := by
  induction m with
  | nil => exact absurd he List.not_mem_nil
  | cons e' m ih =>
    obtain ⟨hnew, hrest⟩ := List.nodup_cons.mp (by simpa using h : (e'.1 :: m.map Prod.fst).Nodup)
    rw [get]
    rcases List.mem_cons.mp he with rfl | he
    · rw [if_pos rfl]
    · have hne : e'.1 ≠ e.1 := fun heq => hnew (heq ▸ List.mem_map_of_mem he)
      rw [if_neg hne]
      exact ih hrest he

/-- A key that is found is one of an entry. -/
theorem mem_of_get (h : get k m = some v) : (k, v) ∈ m := by
  induction m with
  | nil => cases h
  | cons e m ih =>
    rw [get] at h
    split at h
    · next he =>
      injection h with h
      exact (Prod.ext he h : e = (k, v)) ▸ List.mem_cons_self
    · exact List.mem_cons_of_mem _ (ih h)

/-- What is found does not depend on the order of the entries. -/
theorem get_perm {m' : List (κ × ν)} (h : (m.map Prod.fst).Nodup) (hp : m.Perm m') : get k m = get k m' := by
  have h' : (m'.map Prod.fst).Nodup := (hp.map Prod.fst).nodup_iff.mp h
  refine Option.ext fun v => ⟨fun hget => ?_, fun hget => ?_⟩
  · exact get_of_mem h' (hp.mem_iff.mp (mem_of_get hget))
  · exact get_of_mem h (hp.mem_iff.mpr (mem_of_get hget))

theorem set_new (h : k ∉ m.map Prod.fst) : set k v m = m ++ [(k, v)] := by
  induction m with
  | nil => rfl
  | cons e m ih =>
    rw [List.map_cons, List.mem_cons, not_or] at h
    rw [set, if_neg fun he => h.1 he.symm, ih h.2]
    rfl

theorem set_keys (h : k ∈ m.map Prod.fst) : (set k v m).map Prod.fst = m.map Prod.fst := by
  induction m with
  | nil => exact absurd h List.not_mem_nil
  | cons e m ih =>
    rw [set]
    by_cases he : e.1 = k
    · rw [if_pos he, List.map_cons, List.map_cons, he]
    · rw [if_neg he, List.map_cons, List.map_cons]
      rcases List.mem_cons.mp (by simpa using h : k ∈ e.1 :: m.map Prod.fst) with hk | hk
      · exact absurd hk.symm he
      · rw [ih hk]

theorem not_mem_delete : k ∉ (delete k m).map Prod.fst := by
  rw [delete_keys]
  simp

theorem delete_first {e : κ × ν} (h : ((e :: m).map Prod.fst).Nodup) : delete e.1 (e :: m) = m := by
  obtain ⟨hnew, -⟩ := List.nodup_cons.mp (by simpa using h : (e.1 :: m.map Prod.fst).Nodup)
  unfold delete
  rw [List.filter_cons_of_neg (by simp), List.filter_eq_self]
  intro e' he'
  have hne : e'.1 ≠ e.1 := fun heq => hnew (heq ▸ List.mem_map_of_mem he')
  simpa using hne

/-- A map is one of its entries, and what is left without it. -/
theorem perm_delete (h : (m.map Prod.fst).Nodup) {e : κ × ν} (he : e ∈ m) : m.Perm (e :: delete e.1 m) := by
  induction m with
  | nil => exact absurd he List.not_mem_nil
  | cons e' m ih =>
    rcases List.mem_cons.mp he with rfl | he
    · rw [delete_first h]
    · obtain ⟨hnew, hrest⟩ := List.nodup_cons.mp (by simpa using h : (e'.1 :: m.map Prod.fst).Nodup)
      have hne : e'.1 ≠ e.1 := fun heq => hnew (heq ▸ List.mem_map_of_mem he)
      have hdelete : delete e.1 (e' :: m) = e' :: delete e.1 m := by
        unfold delete
        rw [List.filter_cons_of_pos (by simpa using hne)]
      rw [hdelete]
      exact ((ih hrest he).cons e').trans (List.Perm.swap e e' _)

/-- A key that is taken out and set again comes last. -/
theorem set_delete : set k v (delete k m) = delete k m ++ [(k, v)] := set_new not_mem_delete

theorem foldl_set (h : (m.map Prod.fst).Nodup) : m.foldl (fun b e => set e.1 e.2 b) [] = m := by
  have hrest : ∀ acc : List (κ × ν), ((acc ++ m).map Prod.fst).Nodup →
      m.foldl (fun b e => set e.1 e.2 b) acc = acc ++ m := by
    induction m with
    | nil => simp
    | cons e m ih =>
      intro acc hacc
      have hnew : e.1 ∉ acc.map Prod.fst := by
        intro hmem
        rw [List.map_append, List.nodup_append] at hacc
        exact hacc.2.2 _ hmem _ (by simp) rfl
      have hassoc : acc ++ e :: m = (acc ++ [e]) ++ m := by simp
      rw [List.foldl_cons, set_new hnew, hassoc]
      rw [hassoc] at hacc
      exact ih (List.nodup_cons.mp (by simpa using h : (e.1 :: m.map Prod.fst).Nodup)).2 _ hacc
  exact hrest [] h

end

/-! ## Counts -/

section
variable {κ : Type*} [DecidableEq κ] {m m' : List (κ × ℕ)} {f g : κ → ℕ} {k : κ}

/-- `get(k) || 0`. -/
def count (k : κ) (m : List (κ × ℕ)) : ℕ := (get k m).getD 0

/-- `n` more at a key. -/
def add (k : κ) (n : ℕ) (m : List (κ × ℕ)) : List (κ × ℕ) := set k (count k m + n) m

def addAll (m m' : List (κ × ℕ)) : List (κ × ℕ) := m'.foldl (fun m e => add e.1 e.2 m) m

/-- Every key that has a count holds it, and there is no other key. -/
structure Tallies (m : List (κ × ℕ)) (f : κ → ℕ) : Prop where
  nodup : (m.map Prod.fst).Nodup
  get : ∀ k, EntryMap.get k m = if f k = 0 then none else some (f k)

theorem Tallies.nil : Tallies ([] : List (κ × ℕ)) fun _ => 0 :=
  ⟨List.nodup_nil, fun _ => rfl⟩

theorem Tallies.count (h : Tallies m f) (k : κ) : EntryMap.count k m = f k := by
  unfold EntryMap.count
  rw [h.get]
  split
  · next h0 => exact h0.symm
  · rfl

theorem Tallies.add (h : Tallies m f) {n : ℕ} (hn : 0 < n) (k : κ) :
    Tallies (EntryMap.add k n m) fun k' => f k' + if k' = k then n else 0 := by
  refine ⟨nodup_set h.nodup, fun k' => ?_⟩
  unfold EntryMap.add
  rw [get_set, h.count, h.get]
  by_cases hk : k' = k
  · subst hk
    rw [if_pos rfl, if_pos rfl, if_neg (by omega)]
  · rw [if_neg hk, if_neg hk, Nat.add_zero]

theorem Tallies.set (h : Tallies m f) {n : ℕ} (hn : 0 < n) (k : κ) :
    Tallies (EntryMap.set k n m) fun k' => if k' = k then n else f k' := by
  refine ⟨nodup_set h.nodup, fun k' => ?_⟩
  rw [get_set, h.get]
  by_cases hk : k' = k
  · rw [if_pos hk, if_pos hk, if_neg hn.ne']
  · rw [if_neg hk, if_neg hk]

theorem Tallies.delete (h : Tallies m f) (k : κ) :
    Tallies (EntryMap.delete k m) fun k' => if k' = k then 0 else f k' := by
  refine ⟨h.nodup.sublist (List.filter_sublist.map Prod.fst), fun k' => ?_⟩
  rw [get_delete, h.get]
  by_cases hk : k' = k
  · rw [if_pos hk, if_pos hk, if_pos rfl]
  · rw [if_neg hk, if_neg hk]

theorem Tallies.congr (h : Tallies m f) (hfg : ∀ k, f k = g k) : Tallies m g :=
  (funext hfg : f = g) ▸ h

/-- The counts of an entry, and of the entries after it. -/
theorem Tallies.tail {e : κ × ℕ} (h : Tallies (e :: m) f) :
    0 < e.2 ∧ f e.1 = e.2 ∧ Tallies m fun k => if k = e.1 then 0 else f k := by
  obtain ⟨hnew, hrest⟩ := List.nodup_cons.mp (by simpa using h.nodup : (e.1 :: m.map Prod.fst).Nodup)
  have hhead := h.get e.1
  rw [EntryMap.get, if_pos rfl] at hhead
  split at hhead
  · cases hhead
  next hne =>
  injection hhead with hhead
  refine ⟨by omega, hhead.symm, hrest, fun k => ?_⟩
  by_cases hk : k = e.1
  · subst hk
    have hnone : ¬(EntryMap.get e.1 m).isSome := fun hsome => hnew (mem_keys.mpr hsome)
    simpa using hnone
  · have hget := h.get k
    rw [EntryMap.get, if_neg fun heq => hk heq.symm] at hget
    simp only [if_neg hk, hget]

theorem Tallies.addAll (h : Tallies m f) (h' : Tallies m' g) :
    Tallies (EntryMap.addAll m m') fun k => f k + g k := by
  induction m' generalizing m f g with
  | nil =>
    refine h.congr fun k => ?_
    have hnone := h'.get k
    simp only [EntryMap.get] at hnone
    split at hnone
    · next h0 => rw [h0, Nat.add_zero]
    · cases hnone
  | cons e m' ih =>
    obtain ⟨hpos, hhead, htail⟩ := h'.tail
    refine (ih (h.add hpos e.1) htail).congr fun k => ?_
    by_cases hk : k = e.1
    · subst hk
      simp [hhead]
    · simp [hk]

theorem Tallies.of_perm (h : Tallies m f) (hp : m.Perm m') : Tallies m' f :=
  ⟨(hp.map Prod.fst).nodup_iff.mp h.nodup, fun k => (get_perm h.nodup hp).symm.trans (h.get k)⟩

/-- The keys of a map are those that have a count, up to their order. -/
theorem Tallies.keys_perm (h : Tallies m f) (h' : Tallies m' f) : (m.map Prod.fst).Perm (m'.map Prod.fst) := by
  refine (List.perm_ext_iff_of_nodup h.nodup h'.nodup).mpr fun k => ?_
  rw [mem_keys, mem_keys, h.get, h'.get]

end

/-! ## Sorted by key -/

section
variable {κ ν : Type*} [LinearOrder κ]

def sorted (m : List (κ × ν)) : List (κ × ν) := m.mergeSort fun a b => decide (a.1 ≤ b.1)

theorem sorted_perm (m : List (κ × ν)) : (sorted m).Perm m := List.mergeSort_perm m _

end

end PerformanceHelpers.EntryMap
