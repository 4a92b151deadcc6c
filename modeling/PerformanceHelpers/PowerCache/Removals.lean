import PerformanceHelpers.PowerCache.Sweeps

/- Nodes that are taken out of a list, without anything else.

   Deleting, invalidating and sweeping away an expired entry do not look at the eviction
   candidate: they leave the rest of the list in its order and with what it holds, also
   where the candidate is left on the node that has gone (`Thinned`). -/
namespace PerformanceHelpers.PowerCache

variable {K V : Type} {c c' c'' : Cache K V} {xs xs' xs'' l r : List ℕ} {i j : ℕ} {k : K} {now : ℚ}

/-- Of the nodes `xs` those of `xs'` are left, in their order. -/
structure Thinned (c : Cache K V) (xs : List ℕ) (c' : Cache K V) (xs' : List ℕ) : Prop where
  listed : Listed c' xs'
  sublist : xs'.Sublist xs
  config : c'.toConfig = c.toConfig
  entries : SameOn xs' c.toFields c'.toFields

protected theorem SameOn.expiredAt (h : SameOn xs c.toFields c'.toFields) (hi : i ∈ xs) :
    expiredAt c' i now = expiredAt c i now := by
  obtain ⟨-, -, -, hexpires⟩ := h i hi
  unfold expiredAt
  rw [hexpires]

namespace Thinned

theorem refl (h : Listed c xs) : Thinned c xs c xs := ⟨h, List.Sublist.refl xs, rfl, .refl _ _⟩

theorem trans (h : Thinned c xs c' xs') (h' : Thinned c' xs' c'' xs'') : Thinned c xs c'' xs'' :=
  ⟨h'.listed, h'.sublist.trans h.sublist, h'.config.trans h.config,
    (h.entries.mono h'.sublist.subset).trans h'.entries⟩

/-- The nodes that are left are found as before, and no others. -/
theorem get_iff (h : Thinned c xs c' xs') (hlisted : Listed c xs) :
    c'.map.get k = some i ↔ c.map.get k = some i ∧ i ∈ xs' := by
  rw [h.listed.indexes.get_iff, hlisted.indexes.get_iff]
  constructor
  · rintro ⟨hi, hk⟩
    rw [(h.entries i hi).1] at hk
    exact ⟨⟨h.sublist.subset hi, hk⟩, hi⟩
  · rintro ⟨⟨-, hk⟩, hi⟩
    exact ⟨hi, (h.entries i hi).1.trans hk⟩

end Thinned

/-- The sweeps' cursor may be put on any node. -/
theorem Listed.setCursor (h : Listed c xs) (cursor : Option ℕ) (hmem : ∀ i ∈ cursor, i ∈ xs) :
    Listed { c with cleanupCursor := cursor, cleanupCursorValid := cursor.isSome } xs :=
  ⟨h.policy, ⟨h.layout.shape.setCursor hmem, h.layout.weight, h.layout.ghostWeight⟩, h.boundary,
    h.hand⟩

variable [DecidableEq K]

theorem Thinned.unlinked (h : Listed c (l ++ i :: r)) (cs : Counters) (cbs : List (Callback K V)) :
    Thinned c (l ++ i :: r) (freeNode { unlinkNode c i false with counters := cs, log := cbs } i)
      (l ++ r) := by
  have hconfig : (unlinkNode c i false).toConfig = c.toConfig := unlinkNode_toConfig
  refine ⟨h.unlinked cs cbs, ?_, hconfig, unlinkNode_sameOn h.notMem⟩
  exact List.Sublist.append (List.Sublist.refl l) (List.sublist_cons_self i r)

theorem Thinned.removeExpiredNode (h : Listed c (l ++ i :: r)) :
    Thinned c (l ++ i :: r) (removeExpiredNode c i) (l ++ r) := by
  obtain ⟨cs, hremove⟩ := removeExpiredNode_eq c i
  rw [hremove]
  exact .unlinked h cs _

protected theorem Thinned.abortInflight (h : Listed c xs) (key : Option K) :
    Thinned c xs (abortInflight c key) xs := by
  refine ⟨h.abortInflight key, List.Sublist.refl xs, abortInflight_toConfig, ?_⟩
  rw [abortInflight_toFields]
  exact .refl _ _

end PerformanceHelpers.PowerCache
