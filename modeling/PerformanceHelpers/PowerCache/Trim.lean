import PerformanceHelpers.PowerCache.S3Fifo

/- What an eviction leaves.

   The loops that enforce the limits take nodes off the front of a list until the rest
   fits (`trim`). For S3-FIFO that is Main, once Small has been brought to its size: what
   is then in Small stays, whatever it weighs. The nodes that stay hold what they held. -/
namespace PerformanceHelpers.PowerCache
open Function (update_of_ne update update_self)

/-- The front of a list goes until the rest meets `p`. -/
def trim {α : Type*} (p : List α → Bool) : List α → List α
  | [] => []
  | a :: xs => if p (a :: xs) then a :: xs else trim p xs

section
variable {α : Type*} {p p' : List α → Bool} {xs l r : List α}

theorem trim_suffix : trim p xs <:+ xs := by
  induction xs with
  | nil => exact List.suffix_rfl
  | cons a xs ih =>
    rw [trim]
    split
    · exact List.suffix_rfl
    · exact ih.trans (List.suffix_cons a xs)

theorem trim_meets : p (trim p xs) = true ∨ trim p xs = [] := by
  induction xs with
  | nil => exact Or.inr rfl
  | cons a xs ih =>
    rw [trim]
    split
    · next hp => exact Or.inl hp
    · exact ih

theorem trim_congr (h : ∀ ys, ys <:+ xs → p ys = p' ys) : trim p xs = trim p' xs := by
  induction xs with
  | nil => rfl
  | cons a xs ih =>
    rw [trim, trim, h _ List.suffix_rfl, ih fun ys hys => h ys (hys.trans (List.suffix_cons a xs))]

end

variable {K V : Type} {c c' c'' : Cache K V} {xs ys : List ℕ} {i : ℕ}

/-- Entries of these weights are within the limits. -/
def Fits (c : Config K V) (weights : List ℚ) : Prop :=
  (∀ n ∈ c.maxEntries, (weights.length : ℚ) ≤ n) ∧ ∀ w ∈ c.maxWeight, weights.sum ≤ w

instance (c : Config K V) (weights : List ℚ) : Decidable (Fits c weights) :=
  inferInstanceAs (Decidable (_ ∧ _))

def SameOn (nodes : List ℕ) (f g : Fields K V) : Prop := ∀ j ∈ nodes,
  g.key j = f.key j ∧ g.value j = f.value j ∧ g.weight j = f.weight j ∧ g.expiresAt j = f.expiresAt j

theorem SameOn.refl (nodes : List ℕ) (f : Fields K V) : SameOn nodes f f :=
  fun _ _ => ⟨rfl, rfl, rfl, rfl⟩

theorem SameOn.mono {f g : Fields K V} (h : SameOn xs f g) (hsub : ys ⊆ xs) : SameOn ys f g :=
  fun j hj => h j (hsub hj)

theorem SameOn.trans {f f' f'' : Fields K V} (h : SameOn xs f f') (h' : SameOn xs f' f'') :
    SameOn xs f f'' := by
  intro j hj
  obtain ⟨hkey, hvalue, hweight, hexpires⟩ := h j hj
  obtain ⟨hkey', hvalue', hweight', hexpires'⟩ := h' j hj
  exact ⟨hkey'.trans hkey, hvalue'.trans hvalue, hweight'.trans hweight, hexpires'.trans hexpires⟩

theorem SameOn.weights {f g : Fields K V} (h : SameOn xs f g) : xs.map g.weight = xs.map f.weight :=
  List.map_congr_left fun j hj => (h j hj).2.2.1

theorem Fits.sublist {config : Config K V} {ws ws' : List ℚ} (h : Fits config ws)
    (hsub : ws'.Sublist ws) (hw : ∀ w ∈ ws, 0 ≤ w) : Fits config ws' := by
  refine ⟨fun n hn => le_trans ?_ (h.1 n hn), fun m hm => le_trans ?_ (h.2 m hm)⟩
  · exact_mod_cast hsub.length_le
  · exact hsub.sum_le_sum hw

variable [DecidableEq K] {qs : Queue → List ℕ} {r : List ℕ}

/-! ## Single nodes -/

/-- What is not taken out is left alone. -/
theorem unlinkNode_sameOn {advance : Bool} {cs : Counters} {cbs : List (Callback K V)} (hi : i ∉ xs) :
    SameOn xs c.toFields
      (freeNode { unlinkNode c i advance with counters := cs, log := cbs } i).toFields := by
  intro j hj
  have hne : j ≠ i := by
    rintro rfl
    exact hi hj
  simp only [freeNode, unlinkNode_toFields, update_of_ne hne, and_self]

theorem appendGhost_sameOn (hi : i ∉ xs) (hfields : c'.toFields = c.toFields) :
    SameOn xs c.toFields (appendGhost c' i).toFields := by
  intro j hj
  have hne : j ≠ i := by
    rintro rfl
    exact hi hj
  simp only [appendGhost, hfields, update_of_ne hne, and_self]

theorem demoteOne_sameOn (hi : i ∉ xs) : SameOn xs c.toFields (demoteOne c i).toFields := by
  have hne : ∀ j ∈ xs, j ≠ i := by
    rintro j hj rfl
    exact hi hj
  simp only [demoteOne]
  split
  · exact appendGhost_sameOn hi rfl
  · intro j hj
    simp only [dropNode, freeNode, abortInflight_toFields, update_of_ne (hne j hj),
      removeFromSmall, and_self]

theorem evictOne_sameOn (hi : i ∉ xs) : SameOn xs c.toFields (evictOne c i).toFields := by
  unfold evictOne
  split
  · exact appendGhost_sameOn hi unlinkNode_toFields
  · have hne : ∀ j ∈ xs, j ≠ i := by
      rintro j hj rfl
      exact hi hj
    intro j hj
    simp only [evictNode, dropNode, freeNode, unlinkNode_toFields, abortInflight_toFields,
      update_of_ne (hne j hj), and_self]

omit [DecidableEq K] in
theorem Rep.nodup (h : Rep c qs) : (qs .main ++ qs .small).Nodup := by
  refine List.Nodup.sublist ?_ h.shape.nodup
  simp only [Heap.nodes, List.append_sublist_append_left]
  exact List.sublist_append_left _ _

omit [DecidableEq K] in
theorem Rep.overLimit_iff (h : Rep c qs) : overLimit c (c.map.size + c.smallSize) = false ↔
    Fits c.toConfig ((qs .main ++ qs .small).map c.weight) := by
  have hsize : ((c.map.size : ℚ) + c.smallSize) =
      (((qs .main ++ qs .small).map c.weight).length : ℚ) := by
    have hmain : c.map.size = (qs .main).length := (h.shape.index .main).size_eq
    rw [hmain, h.smallSize, List.length_map, List.length_append]
    push_cast
    rfl
  have hweight : c.currentWeight = ((qs .main ++ qs .small).map c.weight).sum := h.weight
  rw [hsize, overLimit, Bool.or_eq_false_iff, hweight]
  refine and_congr ?_ ?_
  · cases c.maxEntries <;> simp
  · cases c.maxWeight <;> simp

/-! ## The two loops -/

/-- Small's oldest nodes go, as many as turns. -/
protected theorem Rep.demoteSmall (h : Rep c qs) (turns : ℕ)
    (hturns : c.smallSize - c.smallMaxSize = turns ∨ turns = 0) (hmax : 0 ≤ c.smallMaxSize) :
    ∃ qs', Rep (demoteSmall turns c) qs' ∧ qs' .main = qs .main ∧
      qs' .small = (qs .small).drop turns ∧ (demoteSmall turns c).toConfig = c.toConfig ∧
      SameOn (qs' .main ++ qs' .small) c.toFields (demoteSmall turns c).toFields := by
  induction turns generalizing c qs with
  | zero => exact ⟨qs, h, rfl, rfl, rfl, .refl _ _⟩
  | succ turns ih =>
    have hturns' := hturns.resolve_right (Nat.succ_ne_zero turns)
    have hhead : c.small.head = (qs .small).head? := (h.shape.chains.linked .small).head_eq
    have hsize := h.smallSize
    cases hsmall : qs .small with
    | nil =>
      rw [hsmall, List.length_nil] at hsize
      omega
    | cons i r =>
      have hover : c.smallMaxSize < c.smallSize := by omega
      obtain ⟨g, hg⟩ := h.demoteOne hsmall
      have hconfig : (demoteOne c i).toConfig = c.toConfig := demoteOne_toConfig
      have hr : (update (update qs .small r) .ghost g) .small = r := by
        rw [update_of_ne (by simp), update_self]
      have hm : (update (update qs .small r) .ghost g) .main = qs .main := by
        rw [update_of_ne (by simp), update_of_ne (by simp)]
      have hsize' := hg.smallSize
      rw [hr] at hsize'
      rw [hsmall, List.length_cons] at hsize
      obtain ⟨qs', hrep, hmain, hsmall', hconfig', hsame⟩ := ih hg (by
        rw [hsize', hconfig]
        left
        push_cast at hsize
        omega) (by rw [hconfig]; exact hmax)
      rw [hm] at hmain
      rw [hr] at hsmall'
      have hi : i ∉ qs' .main ++ qs' .small := by
        have hnd := h.nodup
        rw [hsmall] at hnd
        rw [hmain, hsmall']
        intro hi
        refine (List.nodup_middle.mp hnd).notMem ?_
        rcases List.mem_append.mp hi with hi | hi
        · exact List.mem_append_left _ hi
        · exact List.mem_append_right _ (List.mem_of_mem_drop hi)
      simp only [demoteSmall, hover, if_true, hhead, hsmall, List.head?_cons]
      exact ⟨qs', hrep, hmain, hsmall', hconfig'.trans hconfig,
        (demoteOne_sameOn hi).trans hsame⟩

/-- Main's oldest nodes go until the others and Small fit. -/
protected theorem Rep.evictMain (h : Rep c qs) {turns : ℕ} (hturns : (qs .main).length ≤ turns) :
    ∃ qs', Rep (evictMain turns c) qs' ∧
      qs' .main = trim (fun ys => Fits c.toConfig ((ys ++ qs .small).map c.weight)) (qs .main) ∧
      qs' .small = qs .small ∧ (evictMain turns c).toConfig = c.toConfig ∧
      SameOn (qs' .main ++ qs' .small) c.toFields (evictMain turns c).toFields := by
  induction turns generalizing c qs with
  | zero =>
    have hnil : qs .main = [] := List.length_eq_zero_iff.mp (Nat.le_zero.mp hturns)
    refine ⟨qs, h, ?_, rfl, rfl, .refl _ _⟩
    rw [hnil, trim]
  | succ turns ih =>
    rw [evictMain, h.victim]
    split
    · next hover =>
      have hfits : ¬Fits c.toConfig ((qs .main ++ qs .small).map c.weight) := by
        rw [← h.overLimit_iff, hover]
        simp
      cases hmain : qs .main with
      | nil =>
        refine ⟨qs, h, ?_, rfl, rfl, .refl _ _⟩
        rw [hmain, trim]
      | cons i r =>
        obtain ⟨g, hg⟩ := h.evictOne hmain
        have hconfig : (evictOne c i).toConfig = c.toConfig := evictOne_toConfig
        have hr : (update (update qs .main r) .ghost g) .main = r := by
          rw [update_of_ne (by simp), update_self]
        have hs : (update (update qs .main r) .ghost g) .small = qs .small := by
          rw [update_of_ne (by simp), update_of_ne (by simp)]
        rw [hmain, List.length_cons] at hturns
        obtain ⟨qs', hrep, hmain', hsmall', hconfig', hsame⟩ := ih hg (by rw [hr]; omega)
        rw [hr, hs] at hmain'
        rw [hs] at hsmall'
        have hnot : i ∉ r ++ qs .small := by
          have hnd := h.nodup
          rw [hmain, List.cons_append] at hnd
          exact (List.nodup_cons.mp hnd).1
        have hmain'' : qs' .main =
            trim (fun ys => Fits c.toConfig ((ys ++ qs .small).map c.weight)) r := by
          rw [hmain']
          refine trim_congr fun ys hys => decide_eq_decide.mpr ?_
          have hi : i ∉ ys ++ qs .small := fun hi => hnot (by
            rcases List.mem_append.mp hi with hi | hi
            · exact List.mem_append_left _ (hys.subset hi)
            · exact List.mem_append_right _ hi)
          rw [hconfig, SameOn.weights (evictOne_sameOn hi)]
        have hi : i ∉ qs' .main ++ qs' .small := by
          rw [hmain'', hsmall']
          intro hi
          refine hnot ?_
          rcases List.mem_append.mp hi with hi | hi
          · exact List.mem_append_left _ (trim_suffix.subset hi)
          · exact List.mem_append_right _ hi
        rw [hmain] at hfits
        refine ⟨qs', hrep, ?_, hsmall', hconfig'.trans hconfig, (evictOne_sameOn hi).trans hsame⟩
        rw [hmain'', trim, if_neg (by simpa using hfits)]
    · next hover =>
      have hfits : Fits c.toConfig ((qs .main ++ qs .small).map c.weight) := by
        rw [← h.overLimit_iff]
        simpa using hover
      refine ⟨qs, h, ?_, rfl, rfl, .refl _ _⟩
      cases hmain : qs .main with
      | nil => rw [trim]
      | cons i r =>
        rw [hmain] at hfits
        rw [trim, if_pos (by simpa using hfits)]

protected theorem Rep.evictIfNeeded (h : Rep c qs) (hpol : c.policy = .s3fifo) (hmax : 0 ≤ c.smallMaxSize) :
    ∃ qs', Rep (evictIfNeeded c) qs' ∧
      qs' .small = (qs .small).drop ((qs .small).length - c.smallMaxSize.toNat) ∧
      qs' .main = trim (fun ys => Fits c.toConfig ((ys ++ qs' .small).map c.weight)) (qs .main) ∧
      (evictIfNeeded c).toConfig = c.toConfig ∧
      SameOn (qs' .main ++ qs' .small) c.toFields (evictIfNeeded c).toFields := by
  obtain ⟨qs₁, hsmall, hmain₁, hsmall₁, hconfig₁, hsame₁⟩ :=
    h.demoteSmall (c.smallSize - c.smallMaxSize).toNat (by omega) hmax
  obtain ⟨qs₂, hmain, hmain₂, hsmall₂, hconfig₂, hsame₂⟩ :=
    hsmall.evictMain (hsmall.shape.length_le .main)
  have hevict : evictIfNeeded c = evictMain
      (demoteSmall (c.smallSize - c.smallMaxSize).toNat c).nextNode
      (demoteSmall (c.smallSize - c.smallMaxSize).toNat c) := by
    simp only [evictIfNeeded, hpol, s3fifoEvict, hmain.settleCandidate]
  have hdrop : (c.smallSize - c.smallMaxSize).toNat = (qs .small).length - c.smallMaxSize.toNat := by
    have hsize := h.smallSize
    omega
  have hsub : qs₂ .main ++ qs₂ .small ⊆ qs₁ .main ++ qs₁ .small := by
    rw [hmain₂, hsmall₂]
    intro j hj
    rcases List.mem_append.mp hj with hj | hj
    · exact List.mem_append_left _ (trim_suffix.subset hj)
    · exact List.mem_append_right _ hj
  rw [hevict]
  refine ⟨qs₂, hmain, ?_, ?_, hconfig₂.trans hconfig₁, (hsame₁.mono hsub).trans hsame₂⟩
  · rw [hsmall₂, hsmall₁, hdrop]
  · rw [hmain₂, hmain₁]
    refine trim_congr fun ys hys => decide_eq_decide.mpr ?_
    have hsame : SameOn (ys ++ qs₁ .small) c.toFields
        (demoteSmall (c.smallSize - c.smallMaxSize).toNat c).toFields := by
      refine hsame₁.mono fun j hj => ?_
      rw [hmain₁]
      rcases List.mem_append.mp hj with hj | hj
      · exact List.mem_append_left _ (hys.subset hj)
      · exact List.mem_append_right _ hj
    rw [hconfig₁, hsmall₂, hsame.weights]

end PerformanceHelpers.PowerCache
