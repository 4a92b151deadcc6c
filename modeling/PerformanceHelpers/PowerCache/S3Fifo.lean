import PerformanceHelpers.PowerCache.Moves

/- S3-FIFO: Small, Main and Ghost.

   A node that is looked up in Small or Ghost may be unlinked by `_unlinkNode`, which
   takes it out of Main's ends first, and `setMany` looks for a key in Main only. In a
   run without these two the three queues keep their representation. -/
namespace PerformanceHelpers.PowerCache
open Function (update_self update update_of_ne)

variable {K V : Type} [DecidableEq K] {c c' : Cache K V} {xs : Queue → List ℕ} {l r : List ℕ}
  {q : Queue} {i : ℕ} {k : K}

/-- A cache with policy `'s3fifo'` whose queues are lists of nodes. -/
structure Sound (c : Cache K V) : Prop where
  plain : c.policy = .s3fifo ∧ c.sketch = none
  rep : ∃ xs, Rep c xs

omit [DecidableEq K] in
theorem Sound.policy (h : Sound c) : c.policy = .s3fifo := h.plain.1

omit [DecidableEq K] in
theorem Rep.congr (h : Rep c xs) (hfields : c'.toFields = c.toFields) (hheap : c'.toHeap = c.toHeap)
    (hweight : c'.currentWeight = c.currentWeight) : Rep c' xs := by
  refine ⟨⟨?_, ?_, ?_⟩, ?_⟩
  · rw [hheap, hfields]
    exact h.shape
  · rw [hweight, hfields]
    exact h.weight
  · rw [hfields]
    exact h.ghostWeight
  · rw [hheap]
    exact h.candidate

/-! ## Eviction -/

theorem remove_prev : (remove c i).links.prev i = none := by
  cases hp : c.policy <;> cases hq : c.queue i <;> simp only [remove, hp, hq] <;>
    exact update_self _ _ _

theorem demoteOne_toConfig : (demoteOne c i).toConfig = c.toConfig := by
  simp only [demoteOne]
  split
  · rfl
  · exact abortInflight_toConfig

theorem evictNode_toConfig : (evictNode c i).toConfig = c.toConfig :=
  unlinkNode_toConfig.trans abortInflight_toConfig

theorem evictOne_toConfig : (evictOne c i).toConfig = c.toConfig := by
  unfold evictOne
  split
  · exact unlinkNode_toConfig
  · exact evictNode_toConfig

protected theorem Rep.demoteOne (h : Rep c xs) (hxs : xs .small = i :: r) :
    ∃ g, Rep (demoteOne c i) (update (update xs .small r) .ghost g) := by
  have hsmall : Linked c.links c.small (xs .small) := h.shape.chains.linked .small
  have hi : i ∈ xs .small := by simp [hxs]
  have hd : Detached c.toHeap (removeFromSmall
      { c with currentWeight := c.currentWeight - c.weight i } i).toHeap c.key .small i :=
    detached_removeFromSmall
  unfold demoteOne
  split
  · refine ⟨_, h.demote (l := []) hxs (by simp) hd rfl rfl ?_, h.candidate⟩
    have hp : c.links.prev i = none := by
      rw [(hsmall.links [] i r hxs).1]
      rfl
    exact (assign_of_ne (hsmall.next_ne hi)).trans hp
  · refine ⟨xs .ghost, ?_⟩
    have hsame : update (update xs .small r) .ghost (xs .ghost) =
        update xs .small r := by
      rw [Function.update_eq_self_iff]
      rfl
    rw [hsame]
    refine ⟨h.drop (l := []) hxs ?_ ?_ ?_, ?_⟩
    · simpa using hd
    · exact abortInflight_toFields
    · exact abortInflight_currentWeight
    · exact (congrArg Heap.evictionCandidate abortInflight_toHeap).trans h.candidate

protected theorem Rep.evictOne (h : Rep c xs) (hxs : xs .main = i :: r) :
    ∃ g, Rep (evictOne c i) (update (update xs .main r) .ghost g) := by
  unfold evictOne
  split
  · have hi : i ∈ xs .main := by simp [hxs]
    have hcand : (unlinkNode c i true).evictionCandidate = _ :=
      h.unlinked_candidate (l := []) hxs (Or.inl (h.shape.queue .main i hi)) (by simp)
    exact ⟨_, h.demote (l := []) hxs (by simp) (Detached.of_main h.shape hi) unlinkNode_toFields
      unlinkNode_currentWeight remove_prev, hcand⟩
  · refine ⟨xs .ghost, ?_⟩
    have hsame : update (update xs .main r) .ghost (xs .ghost) =
        update xs .main r := by
      rw [Function.update_eq_self_iff]
      rfl
    rw [hsame]
    exact h.evictNode hxs

/-! ## The loops end by themselves -/

omit [DecidableEq K] in
theorem Rep.smallSize (h : Rep c xs) : c.smallSize = (xs .small).length := h.shape.smallSize

namespace Sound

protected theorem demoteSmall {turns : ℕ} (h : Sound c) : Sound (demoteSmall turns c) := by
  induction turns generalizing c with
  | zero => exact h
  | succ turns ih =>
    obtain ⟨xs, hxs⟩ := h.rep
    have hhead : c.small.head = (xs .small).head? := (hxs.shape.chains.linked .small).head_eq
    rw [demoteSmall, hhead]
    split
    · cases hsmall : xs .small with
      | nil => exact h
      | cons i r =>
        obtain ⟨g, hg⟩ := hxs.demoteOne hsmall
        refine ih ⟨?_, _, hg⟩
        rw [demoteOne_toConfig]
        exact h.plain
    · exact h

protected theorem evictMain {turns : ℕ} (h : Sound c) : Sound (evictMain turns c) := by
  induction turns generalizing c with
  | zero => exact h
  | succ turns ih =>
    obtain ⟨xs, hxs⟩ := h.rep
    rw [evictMain, hxs.victim]
    split
    · cases hmain : xs .main with
      | nil => exact h
      | cons i r =>
        obtain ⟨g, hg⟩ := hxs.evictOne hmain
        refine ih ⟨?_, _, hg⟩
        rw [evictOne_toConfig]
        exact h.plain
    · exact h

protected theorem evictIfNeeded (h : Sound c) : Sound (evictIfNeeded c) := by
  have hmain : Sound (evictMain
      (demoteSmall (c.smallSize - c.smallMaxSize).toNat c).nextNode
      (demoteSmall (c.smallSize - c.smallMaxSize).toNat c)) :=
    h.demoteSmall.evictMain
  obtain ⟨xs, hxs⟩ := hmain.rep
  simp only [evictIfNeeded, h.policy, s3fifoEvict, hxs.settleCandidate]
  exact hmain

end Sound

/-! ## Calls on one node -/

/-- A node of Small or Ghost goes to Main; what it weighs from then on is counted. -/
theorem Rep.promote (c' : Cache K V) (hshape : Shape c.toHeap c.key xs []) (hxs : xs q = l ++ i :: r)
    (hq : q ≠ .main) (hd : Detached c.toHeap c'.toHeap c.key q i)
    (hfields : c'.toFields = c.toFields)
    (hweight : c'.currentWeight = weightOf c.weight (update xs q (l ++ r)) + c.weight i)
    (hghost : ∀ j ∈ update xs q (l ++ r) .ghost, c.weight j = 0)
    (hcand : c'.evictionCandidate = (xs .main).head?) :
    Rep (appendMain { c' with
      queue := update c'.queue i .main
      links := clearLinks c'.links i } i)
      (update (update xs q (l ++ r)) .main (xs .main ++ [i])) := by
  have hkey : c'.key = c.key := congrArg Fields.key hfields
  have hw : c'.weight = c.weight := congrArg Fields.weight hfields
  have hpromoted := hshape.promote hxs hq hd hkey
  have hmain : xs .main = update xs q (l ++ r) .main :=
    (update_of_ne (Ne.symm hq) _ _).symm
  have htail : c'.main.tail = none ↔ xs .main = [] := by
    rw [hmain]
    exact ((hshape.detached hxs hd).chains.linked .main).tail_none_iff
  rw [hmain] at hpromoted ⊢
  refine ⟨⟨hkey ▸ hpromoted, ?_, ?_⟩, ?_⟩
  · show c'.currentWeight = weightOf c'.weight _
    rw [hweight, hw, weightOf_append (by simp)]
  · intro j hj
    show c'.weight j = 0
    rw [hw]
    exact hghost j hj
  · rw [update_self, ← hmain]
    simp only [appendMain, htail, hcand]
    cases xs .main <;> simp

omit [DecidableEq K] in
protected theorem Rep.lookup (h : Rep c xs) (hl : lookup c k = some i) :
    ∃ q, i ∈ xs q ∧ c.key i = some k := by
  have hmap : ∀ q, (c.toHeap.index q).get k = some i → ∃ q, i ∈ xs q ∧ c.key i = some k :=
    fun q hq => ⟨q, ((h.shape.index q).get_iff k i).mp hq⟩
  unfold lookup at hl
  cases hpol : c.policy with
  | lru | slru | sieve => exact hmap .main (show c.map.get k = some i by simpa [hpol] using hl)
  | s3fifo =>
    simp only [hpol] at hl
    cases hm : c.map.get k with
    | some j => exact hmap .main (show c.map.get k = some i by simpa [hm] using hl)
    | none =>
      cases hs : c.smallMap.get k with
      | some j => exact hmap .small (show c.smallMap.get k = some i by simpa [hm, hs] using hl)
      | none => exact hmap .ghost (show c.ghostMap.get k = some i by simpa [hm, hs] using hl)

omit [DecidableEq K] in
theorem lookup_none (hpol : c.policy = .s3fifo) (hl : lookup c k = none) (q : Queue) :
    (c.toHeap.index q).get k = none := by
  simp only [lookup, hpol] at hl
  cases hm : c.map.get k <;> cases hs : c.smallMap.get k <;> cases hg : c.ghostMap.get k <;>
    simp_all
  cases q
  · exact hm
  · exact hs
  · exact hg

/-- What a write leaves in the fields. -/
def Fields.write (f : Fields K V) (i : ℕ) (v : V) (w x : ℚ) : Fields K V where
  key := f.key
  value := Function.update f.value i (some v)
  weight := Function.update f.weight i w
  expiresAt := Function.update f.expiresAt i x

protected theorem Rep.updateExisting {v : V} {w x : ℚ} (hxs : Rep c xs) (hpol : c.policy = .s3fifo)
    (hsplit : xs q = l ++ i :: r) :
    (q = .main ∧ Rep (updateExisting c i v w x) xs ∧
      (updateExisting c i v w x).toConfig = c.toConfig ∧
      (updateExisting c i v w x).toFields = c.toFields.write i v w x) ∨
    (q ≠ .main ∧ ∃ c', updateExisting c i v w x = evictIfNeeded c' ∧
      Rep c' (update (update xs q (l ++ r)) .main (xs .main ++ [i])) ∧
      c'.toConfig = c.toConfig ∧ c'.toFields = c.toFields.write i v w x) := by
  have hi : i ∈ xs q := by simp [hsplit]
  have hlinked := hxs.shape.chains.linked q
  rw [hsplit] at hlinked
  have hqueue := hxs.shape.queue q i hi
  have hold : ∀ q', ∀ j ∈ update xs q (l ++ r) q', update c.weight i w j =
      c.weight j := by
    intro q' j hj
    refine update_of_ne ?_ _ _
    rintro rfl
    obtain rfl := hxs.shape.chains.apart q' q j (mem_update_erase hsplit hj) hi
    rw [update_self] at hj
    exact (List.nodup_middle.mp hlinked.nodup).notMem hj
  have hghost : ∀ j ∈ update xs q (l ++ r) .ghost, update c.weight i w j = 0 :=
    fun j hj => (hold .ghost j hj).trans (hxs.ghostWeight j (mem_update_erase hsplit hj))
  have hself : update c.weight i w i = w := update_self _ _ _
  -- the weight of the others, and the new one
  have hw : c.currentWeight - c.weight i + w =
      weightOf (update c.weight i w) (update xs q (l ++ r)) +
        update c.weight i w i := by
    rw [weightOf_congr hold, hself, hxs.weight]
    by_cases hq : q = .ghost
    · subst hq
      rw [hxs.ghostWeight i hi, weightOf_ghost, sub_zero]
    · rw [weightOf_erase hsplit hq]
  simp only [updateExisting, moveToTail, hpol, hqueue]
  cases q with
  | main =>
    refine Or.inl ⟨rfl, ⟨⟨hxs.shape, ?_, fun j hj => ?_⟩, hxs.candidate⟩, rfl, rfl⟩
    · refine hw.trans ?_
      rw [weightOf_erase hsplit (by simp)]
      ring
    · exact hghost j hj
  | small =>
    have hrep := Rep.promote (c := { c with
        currentWeight := c.currentWeight - c.weight i + w
        value := update c.value i (some v)
        weight := update c.weight i w
        expiresAt := update c.expiresAt i x }) _ hxs.shape hsplit (by simp)
      detached_removeFromSmall rfl hw hghost hxs.candidate
    exact Or.inr ⟨by simp, _, rfl, hrep, rfl, rfl⟩
  | ghost =>
    have hrep := Rep.promote (c := { c with
        currentWeight := c.currentWeight - c.weight i + w
        value := update c.value i (some v)
        weight := update c.weight i w
        expiresAt := update c.expiresAt i x }) _ hxs.shape hsplit (by simp)
      detached_removeFromGhost rfl hw hghost hxs.candidate
    exact Or.inr ⟨by simp, _, rfl, hrep, rfl, rfl⟩

namespace Sound

protected theorem moveToTail (h : Sound c) (hxs : Rep c xs) (hi : i ∈ xs q) (hq : q ≠ .ghost) :
    Sound (moveToTail c i) := by
  have hqueue := hxs.shape.queue q i hi
  simp only [moveToTail, h.policy, hqueue]
  cases q with
  | main => exact h
  | ghost => exact absurd rfl hq
  | small =>
    obtain ⟨l, r, hsplit⟩ := List.append_of_mem hi
    have hw : c.currentWeight =
        weightOf c.weight (update xs .small (l ++ r)) + c.weight i := by
      rw [hxs.weight, weightOf_erase hsplit (by simp)]
      ring
    have hrep := Rep.promote (removeFromSmall c i) hxs.shape hsplit (by simp)
      detached_removeFromSmall rfl hw hxs.ghostWeight hxs.candidate
    exact Sound.evictIfNeeded ⟨h.plain, _, hrep⟩

protected theorem updateExisting {v : V} {w x : ℚ} (h : Sound c) (hxs : Rep c xs) (hi : i ∈ xs q) :
    Sound (updateExisting c i v w x) := by
  obtain ⟨l, r, hsplit⟩ := List.append_of_mem hi
  rcases hxs.updateExisting (v := v) (w := w) (x := x) h.policy hsplit with
    ⟨-, hrep, hconfig, -⟩ | ⟨-, c', hevict, hrep, hconfig, -⟩
  · refine ⟨?_, xs, hrep⟩
    rw [hconfig]
    exact h.plain
  · rw [hevict]
    refine Sound.evictIfNeeded ⟨?_, _, hrep⟩
    rw [hconfig]
    exact h.plain

end Sound

/-! ## Calls -/

def LookupOk (c : Cache K V) (key : K) (ignoreExpiry : Bool) (now : ℚ) : Prop :=
  ∀ i ∈ lookup c key, ignoreExpiry = false → now ≠ 0 → expiredAt c i now →
    c.queue i ≠ .ghost → Detachable c i

instance (c : Cache K V) (key : K) (ignoreExpiry : Bool) (now : ℚ) :
    Decidable (LookupOk c key ignoreExpiry now) :=
  inferInstanceAs (Decidable (∀ i ∈ lookup c key, _ → _ → _ → _ → _))

namespace Sound

omit [DecidableEq K] in
theorem congr (h : Sound c) (hconfig : c'.toConfig = c.toConfig) (hfields : c'.toFields = c.toFields)
    (hheap : c'.toHeap = c.toHeap) (hweight : c'.currentWeight = c.currentWeight) : Sound c' := by
  obtain ⟨xs, hxs⟩ := h.rep
  refine ⟨?_, xs, hxs.congr hfields hheap hweight⟩
  rw [hconfig]
  exact h.plain

theorem unlinked {cs : Counters} {cbs : List (Callback K V)} (h : Sound c) (hxs : Rep c xs)
    (hi : i ∈ xs q) (hd : Detachable c i) :
    Sound (freeNode { unlinkNode c i false with counters := cs, log := cbs } i) := by
  obtain ⟨l, r, hsplit⟩ := List.append_of_mem hi
  refine ⟨?_, _, hxs.unlinked cs cbs hsplit hd fun _ => h.policy⟩
  have hconfig : (unlinkNode c i false).toConfig = c.toConfig := unlinkNode_toConfig
  exact ⟨(congrArg Config.policy hconfig).trans h.plain.1,
    (congrArg Config.sketch hconfig).trans h.plain.2⟩

omit [DecidableEq K] in
protected theorem countMiss {count : Bool} (h : Sound c) : Sound (countMiss c count) := by
  cases count
  · exact h
  · exact h.congr rfl rfl rfl rfl

/-- A lookup keeps the queues; the node it finds is in Main or Small. -/
protected theorem fetchValidNode {ign : Bool} {now : ℚ} (count : Bool) (h : Sound c) (hxs : Rep c xs)
    (hok : LookupOk c k ign now) :
    (∃ c', fetchValidNode c k ign count now = (c', none) ∧ Sound c') ∨
      ∃ i q, fetchValidNode c k ign count now = (c, some i) ∧ i ∈ xs q ∧ q ≠ .ghost := by
  unfold fetchValidNode
  cases hl : lookup c k with
  | none => exact Or.inl ⟨_, rfl, h.countMiss⟩
  | some i =>
    obtain ⟨q, hi, hkey⟩ := hxs.lookup hl
    have hqueue := hxs.shape.queue q i hi
    simp only [h.policy, true_and]
    split
    · exact Or.inl ⟨_, rfl, h.countMiss⟩
    · next hghost =>
      -- a node of Ghost is not in `_map`
      have hq : q ≠ .ghost := by
        rintro rfl
        have hget : (c.toHeap.index .main).get k = none := hxs.shape.get_none hi hkey (by simp)
        exact hghost ⟨Option.isNone_iff_eq_none.mpr hget, hqueue⟩
      split
      · next hexp =>
        have hd := hok i hl hexp.1 hexp.2.1 hexp.2.2 (by rwa [hqueue])
        exact Or.inl ⟨_, rfl, (h.unlinked hxs hi hd).countMiss⟩
      · exact Or.inr ⟨i, q, rfl, hi, hq⟩

protected theorem get {now : ℚ} (h : Sound c) (hok : LookupOk c k false now) : Sound (get c k now).1 := by
  obtain ⟨xs, hxs⟩ := h.rep
  rcases h.fetchValidNode true hxs hok with ⟨c', hc, h'⟩ | ⟨i, q, hc, hi, hq⟩
  · simp only [get, hc]
    exact h'
  · have h' := h.moveToTail hxs hi hq
    have hkey : countKey (countHit (moveToTail c i)) k =
        countHit (moveToTail c i) :=
      countKey_plain (c := countHit (moveToTail c i)) h'.plain.2
    simp only [get, hc, hkey]
    exact h'.congr rfl rfl rfl rfl

protected theorem peek {now : ℚ} (h : Sound c) (hok : LookupOk c k false now) : Sound (peek c k now).1 := by
  obtain ⟨xs, hxs⟩ := h.rep
  rcases h.fetchValidNode false hxs hok with ⟨c', hc, h'⟩ | ⟨i, q, hc, -, -⟩
  · simp only [peek, hc]
    exact h'
  · simp only [peek, hc]
    exact h

protected theorem has {ign : Bool} {now : ℚ} (h : Sound c) (hok : LookupOk c k ign now) :
    Sound (has c k ign now).1 := by
  obtain ⟨xs, hxs⟩ := h.rep
  rcases h.fetchValidNode false hxs hok with ⟨c', hc, h'⟩ | ⟨i, q, hc, -, -⟩
  · simp only [has, hc]
    exact h'
  · simp only [has, hc]
    exact h

theorem getMany {ign : Bool} {keys : List (K × ℚ)} {acc : Cache K V × List (K × Option V)}
    (h : Sound acc.1) (hok : Meets (getManyOne ign)
      (fun acc q => LookupOk acc.1 q.1 ign q.2) acc keys) :
    Sound (keys.foldl (getManyOne ign) acc).1 := by
  induction keys generalizing acc with
  | nil => exact h
  | cons p keys ih =>
    refine ih ?_ hok.2
    obtain ⟨xs, hxs⟩ := h.rep
    rcases h.fetchValidNode true hxs hok.1 with ⟨c', hc, h'⟩ | ⟨i, q, hc, hi, hq⟩
    · simp only [getManyOne, hc]
      exact h'
    · simp only [getManyOne, hc]
      exact (h.moveToTail hxs hi hq).congr rfl rfl rfl rfl

protected theorem insertNode {v : V} {w x : ℚ} (h : Sound c)
    (hfresh : ∀ q, (c.toHeap.index q).get k = none) : Sound (insertNode c k v w x) := by
  obtain ⟨xs, hxs⟩ := h.rep
  refine ⟨?_, _, hxs.insertNode hfresh (by simp [h.policy])⟩
  rw [insertNode_frame.1]
  exact h.plain

omit [DecidableEq K] in
protected theorem countWeightError (v : V) (weight : Option Weight) (h : Sound c) :
    Sound (countWeightError c v weight) := by
  unfold countWeightError
  split
  · exact h.congr rfl rfl rfl rfl
  · exact h

theorem store {v : V} {x : ℚ} {weight : Option Weight} (h : Sound c) :
    Sound (store c k v x weight).1 := by
  have hcount := h.countWeightError v weight
  obtain ⟨xs, hxs⟩ := hcount.rep
  simp only [PowerCache.store]
  split
  · exact hcount.congr rfl rfl rfl rfl
  · cases hl : lookup (countWeightError c v weight) k with
    | none =>
      have h' := hcount.insertNode (v := v) (w := computeWeight c.weightFn v weight) (x := x)
        (lookup_none hcount.policy hl)
      simp only [insertNew_plain hcount.plain.2, countKey_plain h'.plain.2, if_true]
      exact h'.evictIfNeeded
    | some i =>
      obtain ⟨q, hi, -⟩ := hxs.lookup hl
      have h' := hcount.updateExisting (v := v) (w := computeWeight c.weightFn v weight) (x := x)
        hxs hi
      simp only [countKey_plain h'.plain.2, if_true]
      exact h'.evictIfNeeded

end Sound

/-- `setMany` does not look for a key in Small and Ghost: it must not be there. -/
def NewKeyOk (weight : Option Weight) (c : Cache K V) (p : K × V) : Prop :=
  oversized c (computeWeight c.weightFn p.2 weight) = false → c.map.get p.1 = none →
    c.smallMap.get p.1 = none ∧ c.ghostMap.get p.1 = none

instance (weight : Option Weight) (c : Cache K V) (p : K × V) : Decidable (NewKeyOk weight c p) :=
  inferInstanceAs (Decidable (_ → _ → _))

namespace Sound

protected theorem setMany {entries : List (K × V)} {x : ℚ} {weight : Option Weight} (h : Sound c)
    (hok : Meets (setManyOne x weight) (NewKeyOk weight) c entries) :
    Sound (entries.foldl (setManyOne x weight) c) := by
  induction entries generalizing c with
  | nil => exact h
  | cons p entries ih =>
    refine ih ?_ hok.2
    have hcount := h.countWeightError p.2 weight
    have hconfig : (countWeightError c p.2 weight).toConfig = c.toConfig :=
      countWeightError_toConfig
    have hheap : (countWeightError c p.2 weight).toHeap = c.toHeap := by
      unfold countWeightError
      split <;> rfl
    obtain ⟨xs, hxs⟩ := hcount.rep
    simp only [setManyOne, oversized, hconfig, hheap]
    split
    · exact hcount.congr rfl rfl rfl rfl
    · next hover =>
      cases hget : c.map.get p.1 with
      | some i =>
        have hget' : (countWeightError c p.2 weight).map.get p.1 = some i := by
          rw [hheap, hget]
        have hi := (((hxs.shape.index .main).get_iff p.1 i).mp hget').1
        have h' := hcount.updateExisting (v := p.2) (w := computeWeight c.weightFn p.2 weight)
          (x := x) (q := .main) hxs hi
        simp only [countKey_plain h'.plain.2]
        exact h'
      | none =>
        obtain ⟨hsmall, hghost⟩ := hok.1 (by simpa [oversized] using hover) hget
        have hfresh : ∀ q, ((countWeightError c p.2 weight).toHeap.index q).get p.1 =
            none := by
          intro q
          rw [hheap]
          cases q
          · exact hget
          · exact hsmall
          · exact hghost
        have h' := hcount.insertNode (v := p.2) (w := computeWeight c.weightFn p.2 weight) (x := x)
          hfresh
        simp only [insertNew_plain hcount.plain.2, countKey_plain h'.plain.2]
        exact h'

protected theorem abortInflight (key : Option K) (h : Sound c) : Sound (abortInflight c key) :=
  h.congr abortInflight_toConfig abortInflight_toFields abortInflight_toHeap
    abortInflight_currentWeight

protected theorem delete (h : Sound c) (hok : ∀ i ∈ lookup c k, Detachable c i) : Sound (delete c k).1 := by
  have habort := h.abortInflight (some k)
  obtain ⟨xs, hxs⟩ := habort.rep
  simp only [delete]
  cases hl : lookup (abortInflight c (some k)) k with
  | none => exact habort
  | some i =>
    obtain ⟨q, hi, -⟩ := hxs.lookup hl
    have hl' : lookup c k = some i := by
      simpa only [lookup, abortInflight_toConfig, abortInflight_toHeap] using hl
    have hd : Detachable (abortInflight c (some k)) i := by
      simpa only [Detachable, abortInflight_toHeap] using hok i hl'
    exact habort.unlinked hxs hi hd

protected theorem touch {ttl : Option Ttl} {now : ℚ} (h : Sound c) (hok : LookupOk c k false now) :
    Sound (step c (.touch k ttl now)).1 := by
  obtain ⟨xs, hxs⟩ := h.rep
  simp only [step, touch]
  rcases h.fetchValidNode false hxs hok with ⟨c', hc, h'⟩ | ⟨i, q, hc, hi, hq⟩
  · simp only [hc]
    exact h'
  · simp only [hc]
    cases ttl with
    | none => exact h.moveToTail hxs hi hq
    | some ttl =>
      cases htime : expiresAtOf ttl now with
      | error err =>
        simp only [htime]
        exact h
      | ok x =>
        simp only [htime]
        have hrep : Rep { c with expiresAt := update c.expiresAt i x } xs :=
          ⟨⟨hxs.shape, hxs.weight, hxs.ghostWeight⟩, hxs.candidate⟩
        exact Sound.moveToTail ⟨h.plain, xs, hrep⟩ hrep hi hq

protected theorem evictCount {n : ℕ} (h : Sound c) : Sound (evictCount n c).1 := by
  induction n generalizing c with
  | zero => exact h
  | succ n ih =>
    obtain ⟨xs, hxs⟩ := h.rep
    rw [evictCount, hxs.victim]
    cases hmain : xs .main with
    | nil => exact h
    | cons i r =>
      refine ih ⟨?_, _, hxs.evictNode hmain⟩
      rw [evictNode_toConfig]
      exact h.plain

omit [DecidableEq K] in
protected theorem settleCandidate (h : Sound c) : Sound (settleCandidate c) := by
  obtain ⟨xs, hxs⟩ := h.rep
  rw [hxs.settleCandidate]
  exact h

theorem invalidateLoop {doomed : List ℕ} {n : ℕ} (h : Sound c) :
    Sound (doomed.foldl invalidateOne (c, n)).1 := by
  induction doomed generalizing c n with
  | nil => exact h
  | cons i doomed ih =>
    rw [List.foldl_cons, invalidateOne]
    simp only
    split
    · next hget =>
      obtain ⟨xs, hxs⟩ := h.rep
      obtain ⟨k, -, hk⟩ := Option.bind_eq_some_iff.mp hget
      have hi : i ∈ xs .main := (((hxs.shape.index .main).get_iff k i).mp hk).1
      obtain ⟨l, r, hsplit⟩ := List.append_of_mem hi
      refine ih ⟨?_, _, hxs.dropNode "invalidated" hsplit fun hc => nomatch hc⟩
      have hconfig : (unlinkNode (abortInflight c (c.key i)) i false).toConfig =
          c.toConfig := unlinkNode_toConfig.trans abortInflight_toConfig
      exact ⟨(congrArg Config.policy hconfig).trans h.plain.1,
        (congrArg Config.sketch hconfig).trans h.plain.2⟩
    · exact ih h

protected theorem invalidate {p : Option K → Option V → Bool} (h : Sound c) : Sound (invalidate c p).1 := by
  have hloop : Sound ((doomedNodes c p).foldl invalidateOne (c, 0)).1 := h.invalidateLoop
  obtain ⟨xs, hxs⟩ := hloop.rep
  simp only [invalidate, hxs.realignCandidate]
  exact hloop

protected theorem cleanupLoop (now : ℚ) (maxScan : Option ℚ) (turns scanned : ℕ) {node : Option ℕ}
    (h : Sound c) (hxs : Rep c xs) (hnode : ∀ i, node = some i → i ∈ xs .main) :
    Sound (cleanupLoop now maxScan turns scanned node c).1 ∧
      ∃ xs', Rep (cleanupLoop now maxScan turns scanned node c).1 xs' ∧
        ∀ i, (cleanupLoop now maxScan turns scanned node c).2.1 = some i →
          i ∈ xs' .main := by
  induction turns generalizing c xs node scanned with
  | zero => exact ⟨h, xs, hxs, hnode⟩
  | succ turns ih =>
    cases node with
    | none => exact ⟨h, xs, hxs, hnode⟩
    | some i =>
      rw [cleanupLoop]
      have hi := hnode i rfl
      have hmain : Linked c.links c.main (xs .main) := hxs.shape.chains.linked .main
      have hnext : ∀ j, c.links.next i = some j → j ∈ xs .main := fun j => hmain.next_mem hi
      split
      · split
        · obtain ⟨l, r, hsplit⟩ := List.append_of_mem hi
          have hd : Detachable c i := Or.inl (hxs.shape.queue .main i hi)
          have hrep : Rep (removeExpiredNode c i) (update xs .main (l ++ r)) :=
            hxs.unlinked _ _ hsplit hd fun _ => h.policy
          refine ih (scanned + 1) (h.unlinked hxs hi hd) hrep fun j hj => ?_
          rw [update_self]
          have hjr : j ∈ r := by
            rw [(hmain.links l i r hsplit).2] at hj
            exact List.mem_of_head? hj
          exact List.mem_append_right l hjr
        · exact ih (scanned + 1) h hxs hnext
      · exact ⟨h, xs, hxs, hnode⟩

theorem cleanupExpiredUpTo {now : ℚ} {maxScan : Option ℚ} (h : Sound c) :
    Sound (cleanupExpiredUpTo c maxScan now).1 := by
  obtain ⟨xs, hxs⟩ := h.rep
  have hhead : ∀ i, c.main.head = some i → i ∈ xs .main := fun i hi =>
    List.mem_of_head? ((hxs.shape.chains.linked .main).head_eq ▸ hi)
  have hstart : ∀ i, (if c.cleanupCursorValid then c.cleanupCursor <|> c.main.head
      else c.main.head) = some i → i ∈ xs .main := by
    intro i hi
    split at hi
    · cases hc : c.cleanupCursor with
      | none => exact hhead i (by simpa [hc] using hi)
      | some j => exact hxs.shape.cursor i (by simpa [hc] using hi)
    · exact hhead i hi
  obtain ⟨hs, xs', hxs', hnode⟩ := h.cleanupLoop now maxScan (c.nextNode + 1) 0 hxs hstart
  have hhead' : ∀ i, (cleanupLoop now maxScan (c.nextNode + 1) 0 (if c.cleanupCursorValid
      then c.cleanupCursor <|> c.main.head else c.main.head) c).1.main.head = some i →
        i ∈ xs' .main :=
    fun i hi => List.mem_of_head? ((hxs'.shape.chains.linked .main).head_eq ▸ hi)
  simp only [PowerCache.cleanupExpiredUpTo]
  refine ⟨hs.plain, xs', ⟨hxs'.shape.setCursor fun i hi => ?_, hxs'.weight, hxs'.ghostWeight⟩,
    hxs'.candidate⟩
  rw [Option.orElse_eq_orElse, Option.orElse_eq_or, Option.or_eq_some_iff] at hi
  rcases hi with hi | ⟨-, hi⟩
  · exact hnode i hi
  · exact hhead' i hi

protected theorem resize {maxEntries maxWeight : Option ℚ} (h : Sound c) :
    Sound (resize c maxEntries maxWeight) := by
  obtain ⟨xs, hxs⟩ := h.rep
  have hlimits : Sound { c with
      maxEntries := maxEntries.elim c.maxEntries fun n => some (max 0 n)
      maxWeight := maxWeight.elim c.maxWeight fun w => some (max 0 w) } :=
    ⟨h.plain, xs, ⟨hxs.shape, hxs.weight, hxs.ghostWeight⟩, hxs.candidate⟩
  have hevicted := hlimits.evictIfNeeded
  obtain ⟨xs', hxs'⟩ := hevicted.rep
  have hcursor := hxs'.shape.setCursor (by simp : ∀ i ∈ (none : Option ℕ), i ∈ xs' .main)
  simp only [resize]
  exact ⟨hevicted.plain, xs', ⟨hcursor.marked _ _ _ _ _ _ _, hxs'.weight, hxs'.ghostWeight⟩,
    (hxs'.shape.chains.linked .main).head_eq⟩

theorem fetch (h : Sound c) :
    Sound (if hasInflight c (some k) then c
      else addInflight (countMiss c true) k) := by
  split
  · exact h
  · exact h.congr rfl rfl rfl rfl

protected theorem refreshStaleEntry (h : Sound c) : Sound (refreshStaleEntry c k) := by
  unfold refreshStaleEntry
  split
  · exact h
  · split <;> exact h.congr rfl rfl rfl rfl

protected theorem getOrSetAsync {swr : Option Bool} {now : ℚ} (h : Sound c) :
    Sound (getOrSetAsync c k swr now) := by
  obtain ⟨xs, hxs⟩ := h.rep
  simp only [getOrSetAsync]
  cases hget : c.map.get k with
  | none => exact h.fetch
  | some i =>
    have hi : i ∈ xs .main := (((hxs.shape.index .main).get_iff k i).mp hget).1
    have hmoved := h.moveToTail hxs hi (by simp)
    have hused : Sound (countHit (moveToTail c i)) := hmoved.congr rfl rfl rfl rfl
    simp only
    split
    · split
      · refine Sound.refreshStaleEntry ?_
        exact hused.congr rfl rfl rfl rfl
      · exact (h.unlinked hxs hi (Or.inl (hxs.shape.queue .main i hi))).fetch
    · exact hused

end Sound

/-! ## Runs -/

/-- No call unlinks a node of Small or Ghost that is at an end of its queue (unless it is
alone there and Main is empty), and no `setMany` brings in a key that is in Small or
Ghost. -/
def RoutesOk (c : Cache K V) : Event K V → Prop
  | .delete key => ∀ i ∈ lookup c key, Detachable c i
  | .get key now | .peek key now | .touch key _ now => LookupOk c key false now
  | .has key ignoreExpiry now => LookupOk c key ignoreExpiry now
  | .getMany keys ignoreExpiry => Meets (getManyOne ignoreExpiry)
      (fun acc q => LookupOk acc.1 q.1 ignoreExpiry q.2) (c, []) keys
  | .setMany entries ttl weight now =>
    match expiresAtOf (ttl.getD .never) now with
    | .error _ => True
    | .ok x => Meets (setManyOne x weight) (NewKeyOk weight) c entries
  | _ => True

instance (c : Cache K V) : ∀ ev, Decidable (RoutesOk c ev)
  | .delete key => inferInstanceAs (Decidable (∀ i ∈ lookup c key, Detachable c i))
  | .get key now | .peek key now | .touch key _ now =>
    inferInstanceAs (Decidable (LookupOk c key false now))
  | .has key ign now => inferInstanceAs (Decidable (LookupOk c key ign now))
  | .getMany keys ign => inferInstanceAs (Decidable (Meets (getManyOne ign)
      (fun acc q => LookupOk acc.1 q.1 ign q.2) (c, []) keys))
  | .setMany entries ttl weight now =>
    match h : expiresAtOf (ttl.getD .never) now with
    | .error _ => isTrue (by simp only [RoutesOk, h])
    | .ok x => decidable_of_iff (Meets (setManyOne x weight) (NewKeyOk weight) c entries)
        (by simp only [RoutesOk, h])
  | .set _ _ _ _ _ | .evict _ | .invalidate _ | .getOrSetAsync _ _ _ | .finishFetch _ _
  | .resize _ _ | .cleanupExpiredUpTo _ _ | .entries _ => inferInstanceAs (Decidable True)

protected theorem Sound.step {ev : Event K V} (h : Sound c) (hok : RoutesOk c ev) : Sound (step c ev).1 := by
  cases ev with
  | set key value ttl weight now =>
    simp only [step, set]
    cases expiresAtOf (ttl.getD c.defaultTTL) now with
    | error err => exact h
    | ok x => exact h.store
  | setMany entries ttl weight now =>
    simp only [step, setMany]
    cases htime : expiresAtOf (ttl.getD .never) now with
    | error err => exact h
    | ok x => exact (h.setMany (by simpa only [RoutesOk, htime] using hok)).evictIfNeeded
  | get key now => exact h.get hok
  | peek key now => exact h.peek hok
  | has key ign now => exact h.has hok
  | getMany keys ign =>
    have hstart : Sound ((c, []) : Cache K V × List (K × Option V)).1 := h
    exact hstart.getMany hok
  | touch key ttl now => exact h.touch hok
  | delete key => exact h.delete hok
  | evict n =>
    simp only [step, evict]
    split
    · exact h
    · exact h.evictCount.settleCandidate
  | invalidate p => exact h.invalidate
  | getOrSetAsync key swr now => exact h.getOrSetAsync
  | finishFetch key abort =>
    cases abort with
    | true => exact (h.abortInflight (some key)).congr rfl rfl rfl rfl
    | false => exact h.congr rfl rfl rfl rfl
  | resize maxEntries maxWeight => exact h.resize
  | cleanupExpiredUpTo maxScan now => exact h.cleanupExpiredUpTo
  | entries order => exact h

/-- Three disjoint lists, each with its map and its size, and the weight of Small and
Main. -/
structure QueuesKept (c : Cache K V) : Prop where
  queues : ∃ main small ghost : List ℕ,
    (Linked c.links c.main main ∧ Linked c.links c.small small ∧ Linked c.links c.ghost ghost) ∧
    (main ++ (small ++ ghost)).Nodup ∧
    (Indexes c.map c.key main ∧ Indexes c.smallMap c.key small ∧ Indexes c.ghostMap c.key ghost) ∧
    c.smallSize = small.length ∧ c.ghostSize = ghost.length ∧
    c.currentWeight = ((main ++ small).map c.weight).sum
  oneQueue : ∀ k, (c.map.get k = none ∨ c.smallMap.get k = none) ∧
    (c.map.get k = none ∨ c.ghostMap.get k = none) ∧
      (c.smallMap.get k = none ∨ c.ghostMap.get k = none)

omit [DecidableEq K] in
theorem Rep.queuesKept (h : Rep c xs) : QueuesKept c := by
  have hnodup : (xs .main ++ (xs .small ++ xs .ghost)).Nodup := by
    refine List.Nodup.sublist ?_ h.shape.nodup
    simp only [Heap.nodes, List.append_sublist_append_left]
    exact List.sublist_append_left _ _
  have hone : ∀ q q', q ≠ q' → ∀ k, (c.toHeap.index q).get k = none ∨
      (c.toHeap.index q').get k = none := by
    intro q q' hq k
    cases hget : (c.toHeap.index q).get k with
    | none => exact Or.inl rfl
    | some i =>
      obtain ⟨hi, hk⟩ := ((h.shape.index q).get_iff k i).mp hget
      exact Or.inr (h.shape.get_none hi hk (Ne.symm hq))
  exact ⟨⟨xs .main, xs .small, xs .ghost, ⟨h.shape.chains.linked .main,
    h.shape.chains.linked .small, h.shape.chains.linked .ghost⟩, hnodup, ⟨h.shape.index .main,
    h.shape.index .small, h.shape.index .ghost⟩, h.shape.smallSize, h.shape.ghostSize, h.weight⟩,
    fun k => ⟨hone .main .small (by simp) k, hone .main .ghost (by simp) k,
      hone .small .ghost (by simp) k⟩⟩

/-- In a run that meets `RoutesOk`, the three queues keep their representation. -/
theorem s3fifo_keeps_queues {o : Options K V} {c : Cache K V} (hnew : new o = .ok c)
    (hpol : o.policy = .s3fifo) (es : List (Event K V))
    (hok : Meets (fun c ev => (step c ev).1) RoutesOk c es) :
    Always (fun c ev => (step c ev).1) QueuesKept c es := by
  have hstart : Sound c := by
    refine ⟨?_, _, Rep.new hnew⟩
    obtain ⟨maxEntries, inflight, maxWeight, pool, hc, -, -⟩ := new_eq_initial hnew
    rw [hc]
    exact ⟨hpol, by simp [initial, hpol]⟩
  have hall : Always (fun c ev => (step c ev).1) Sound c es :=
    always_of_meets (fun _ _ h hok => h.step hok) hstart hok
  refine hall.mono fun c h => ?_
  obtain ⟨xs, hxs⟩ := h.rep
  exact hxs.queuesKept

/-- Inner nodes of Small are deleted, and batches bring in new keys only. -/
theorem s3fifo_keeps_queues_inner :
    let c : Cache ℕ ℕ :=
      initial { policy := .s3fifo, maxEntries := some 30 } (some 30) 30 none (some 1000)
    let es : List (Event ℕ ℕ) := [.set 1 10 none none 1, .get 1 2, .set 2 20 none none 3,
      .set 3 30 (some (.ms 5)) none 4, .set 4 40 none none 5, .get 3 20, .set 8 80 none none 20, .delete 4,
      .setMany [(5, 50), (6, 60), (7, 70), (1, 11)] none none 21, .evict 1,
      .invalidate fun key _ => key = some 5, .getOrSetAsync 4 none 22, .touch 6 none 23,
      .resize (some 2) none, .cleanupExpiredUpTo none 30]
    Always (fun c ev => (step c ev).1) QueuesKept c es :=
  s3fifo_keeps_queues (o := { policy := .s3fifo, maxEntries := some 30 }) rfl rfl _
    (by decide +kernel)

/-- Deleting the one node of Small empties Main's ends, and Main is lost. -/
theorem delete_from_small_loses_main :
    let c : Cache ℕ ℕ :=
      initial { policy := .s3fifo, maxEntries := some 10 } (some 10) 10 none (some 1000)
    new { policy := .s3fifo, maxEntries := some 10 } = .ok c ∧
      ¬Always (fun c ev => (step c ev).1) QueuesKept c
        [.set 1 10 none none 1, .get 1 2, .set 2 20 none none 3, .delete 2] := by
  refine ⟨rfl, fun h => ?_⟩
  obtain ⟨main, -, -, ⟨hlinked, -, -⟩, -, ⟨hindex, -, -⟩, -⟩ := h.last.queues
  have hnil := hlinked.head_none_iff.mp (by decide +kernel)
  have hget := (hindex.get_iff 1 0).mp (by decide +kernel)
  rw [hnil] at hget
  exact nomatch hget.1

end PerformanceHelpers.PowerCache
