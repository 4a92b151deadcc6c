import PerformanceHelpers.PowerCache.ListRuns
import PerformanceHelpers.PowerCache.Trim

/- The limits of a cache.

   Most calls leave no more behind than there was (`Eases`), and the others evict. A
   list is emptied until the limits hold. S3-FIFO empties Main, but takes nothing more out
   of Small than brings it to its size: if what stays there is beyond the limits by
   itself, so is the cache. -/
namespace PerformanceHelpers.PowerCache
open Function (update update_self update_of_ne)

variable {K V : Type}

def size (c : Cache K V) : ℤ :=
  match c.policy with
  | .lru | .slru | .sieve => c.map.size
  | .s3fifo => c.map.size + c.smallSize

/-- The size and the weight are within the limits. -/
structure WithinLimits (c : Cache K V) : Prop where
  maxEntries : ∀ n ∈ c.maxEntries, (size c : ℚ) ≤ n
  maxWeight : ∀ w ∈ c.maxWeight, c.currentWeight ≤ w

structure Eases (c c' : Cache K V) : Prop where
  config : c'.toConfig = c.toConfig
  size : (c'.map.size : ℤ) + c'.smallSize ≤ c.map.size + c.smallSize
  weight : c'.currentWeight ≤ c.currentWeight
  weights : ∀ i, 0 ≤ c'.weight i

variable {c c' c'' : Cache K V} {i : ℕ} {k : K} {now : ℚ}

theorem Eases.refl (hw : ∀ i, 0 ≤ c.weight i) : Eases c c := ⟨rfl, le_rfl, le_rfl, hw⟩

theorem Eases.trans (h : Eases c c') (h' : Eases c' c'') : Eases c c'' :=
  ⟨h'.config.trans h.config, h'.size.trans h.size, h'.weight.trans h.weight, h'.weights⟩

/-- Counters, callbacks and fetches weigh nothing. -/
theorem Eases.quiet (hw : ∀ i, 0 ≤ c.weight i) (hconfig : c'.toConfig = c.toConfig)
    (hweight : c'.weight = c.weight) (hmap : c'.map = c.map) (hsmall : c'.smallSize = c.smallSize)
    (hcurrent : c'.currentWeight = c.currentWeight) : Eases c c' := by
  refine ⟨hconfig, ?_, hcurrent.le, ?_⟩
  · rw [hmap, hsmall]
  · rw [hweight]
    exact hw

/-- What eases stays within the limits. -/
theorem Eases.fits (h : Eases c c') (hfits : overLimit c (c.map.size + c.smallSize) = false) :
    overLimit c' (c'.map.size + c'.smallSize) = false := by
  obtain ⟨hentries, hweight⟩ := overLimit_iff.mp hfits
  rw [overLimit_iff, h.config]
  refine ⟨fun n hn => le_trans ?_ (hentries n hn), fun w hw => h.weight.trans (hweight w hw)⟩
  exact_mod_cast h.size

variable [DecidableEq K]

theorem deleteKey_size_le (m : KeyMap K ℕ) (key : Option K) : (deleteKey m key).size ≤ m.size := by
  cases key with
  | none => exact le_rfl
  | some k =>
    simp only [deleteKey, Option.elim_some, KeyMap.delete]
    split <;> omega

theorem setKey_size_le (m : KeyMap K ℕ) (key : Option K) (i : ℕ) :
    (setKey m key i).size ≤ m.size + 1 := by
  cases key with
  | none => exact Nat.le_succ _
  | some k =>
    simp only [setKey, Option.elim_some, KeyMap.set]
    split <;> omega

omit [DecidableEq K] in
theorem update_nonneg {w : ℕ → ℚ} (h : ∀ i, 0 ≤ w i) {x : ℚ} (hx : 0 ≤ x) (i : ℕ) :
    ∀ j, 0 ≤ update w i x j := by
  intro j
  by_cases hj : j = i
  · rw [hj, update_self]
    exact hx
  · rw [update_of_ne hj]
    exact h j

/-! ## Nodes that leave -/

theorem unlinkNode_size {advance : Bool} :
    ((unlinkNode c i advance).map.size : ℤ) + (unlinkNode c i advance).smallSize ≤
      c.map.size + c.smallSize := by
  have hdelete : ((deleteKey c.map (c.key i)).size : ℤ) ≤ c.map.size :=
    Int.ofNat_le.mpr (deleteKey_size_le _ _)
  cases hp : c.policy <;> cases hq : c.queue i <;>
    simp only [unlinkNode, remove, dropRefs, hp, hq, removeFromSmall, removeFromGhost] <;> omega

section
variable (hw : ∀ i, 0 ≤ c.weight i)
include hw

theorem Eases.unlinked {advance : Bool} (cs : Counters)
    (cbs : List (Callback K V)) :
    Eases c (freeNode { unlinkNode c i advance with counters := cs, log := cbs } i) := by
  refine ⟨unlinkNode_toConfig, unlinkNode_size, ?_, ?_⟩
  · show (unlinkNode c i advance).currentWeight ≤ c.currentWeight
    rw [unlinkNode_currentWeight]
    exact sub_le_self _ (hw i)
  · show ∀ j, 0 ≤ update (unlinkNode c i advance).weight i 0 j
    rw [unlinkNode_toFields]
    exact update_nonneg hw le_rfl i

theorem Eases.removeExpiredNode : Eases c (removeExpiredNode c i) := by
  obtain ⟨cs, hremove⟩ := removeExpiredNode_eq c i
  rw [hremove]
  exact Eases.unlinked hw cs _

protected theorem Eases.abortInflight (key : Option K) :
    Eases c (abortInflight c key) := by
  apply Eases.quiet hw abortInflight_toConfig
  · rw [abortInflight_toFields]
  · rw [abortInflight_toHeap]
  · rw [abortInflight_toHeap]
  · exact abortInflight_currentWeight

theorem Eases.dropNode {advance : Bool} {reason : String} (key : Option K) :
    Eases c (dropNode (unlinkNode (abortInflight c key) i advance) i reason) := by
  have habort := Eases.abortInflight hw key
  obtain ⟨cs, hdrop⟩ := dropNode_eq (abortInflight c key) i advance reason
  rw [hdrop]
  exact habort.trans (Eases.unlinked habort.weights cs _)

protected theorem Eases.demoteOne : Eases c (demoteOne c i) := by
  have hsub : c.currentWeight - c.weight i ≤ c.currentWeight := sub_le_self _ (hw i)
  simp only [demoteOne]
  split
  · refine ⟨rfl, ?_, hsub, update_nonneg hw le_rfl i⟩
    simp only [appendGhost, removeFromSmall]
    omega
  · refine ⟨abortInflight_toConfig, ?_, ?_, ?_⟩
    · simp only [PowerCache.dropNode, freeNode, abortInflight_toHeap, removeFromSmall]
      omega
    · show (abortInflight _ _).currentWeight ≤ _
      rw [abortInflight_currentWeight]
      exact hsub
    · show ∀ j, 0 ≤ update (abortInflight _ _).weight i 0 j
      rw [abortInflight_toFields]
      exact update_nonneg hw le_rfl i

protected theorem Eases.evictOne : Eases c (evictOne c i) := by
  unfold evictOne
  split
  · refine ⟨unlinkNode_toConfig, unlinkNode_size, ?_, ?_⟩
    · show (unlinkNode c i true).currentWeight ≤ c.currentWeight
      rw [unlinkNode_currentWeight]
      exact sub_le_self _ (hw i)
    · show ∀ j, 0 ≤ update (unlinkNode c i true).weight i 0 j
      rw [unlinkNode_toFields]
      exact update_nonneg hw le_rfl i
  · exact Eases.dropNode hw _

end

/-! ## The loops -/

protected theorem Eases.demoteSmall (turns : ℕ) (hw : ∀ i, 0 ≤ c.weight i) : Eases c (demoteSmall turns c) := by
  induction turns generalizing c with
  | zero => exact .refl hw
  | succ turns ih =>
    rw [demoteSmall]
    split
    · split
      · exact .refl hw
      · exact (Eases.demoteOne hw).trans (ih (Eases.demoteOne hw).weights)
    · exact .refl hw

protected theorem Eases.evictMain (turns : ℕ) (hw : ∀ i, 0 ≤ c.weight i) : Eases c (evictMain turns c) := by
  induction turns generalizing c with
  | zero => exact .refl hw
  | succ turns ih =>
    rw [evictMain]
    split
    · split
      · exact .refl hw
      · exact (Eases.evictOne hw).trans (ih (Eases.evictOne hw).weights)
    · exact .refl hw

omit [DecidableEq K] in
protected theorem Eases.settleCandidate (hw : ∀ i, 0 ≤ c.weight i) : Eases c (settleCandidate c) := by
  unfold settleCandidate
  split
  · exact .quiet hw rfl rfl rfl rfl rfl
  · exact .refl hw

protected theorem Eases.evictIfNeeded (hpol : c.policy = .s3fifo) (hw : ∀ i, 0 ≤ c.weight i) :
    Eases c (evictIfNeeded c) := by
  have hsmall := Eases.demoteSmall (c.smallSize - c.smallMaxSize).toNat hw
  have hmain := Eases.evictMain (demoteSmall (c.smallSize - c.smallMaxSize).toNat c).nextNode
    hsmall.weights
  simp only [evictIfNeeded, hpol, s3fifoEvict]
  exact (hsmall.trans hmain).trans (Eases.settleCandidate hmain.weights)

protected theorem Eases.evictCount (n : ℕ) (hw : ∀ i, 0 ≤ c.weight i) : Eases c (evictCount n c).1 := by
  induction n generalizing c with
  | zero => exact .refl hw
  | succ n ih =>
    rw [evictCount]
    split
    · exact .refl hw
    · next i hv =>
      have hevict : Eases c (evictNode c i) := Eases.dropNode hw _
      exact hevict.trans (ih hevict.weights)

theorem Eases.invalidateLoop (doomed : List ℕ) (n : ℕ) (hw : ∀ i, 0 ≤ c.weight i) :
    Eases c (doomed.foldl invalidateOne (c, n)).1 := by
  induction doomed generalizing c n with
  | nil => exact .refl hw
  | cons i doomed ih =>
    rw [List.foldl_cons, invalidateOne]
    simp only
    split
    · exact (Eases.dropNode hw _).trans (ih _ (Eases.dropNode hw _).weights)
    · exact ih _ hw

protected theorem Eases.cleanupLoop (now : ℚ) (maxScan : Option ℚ) (turns scanned : ℕ) (node : Option ℕ)
    (hw : ∀ i, 0 ≤ c.weight i) : Eases c (cleanupLoop now maxScan turns scanned node c).1 := by
  induction turns generalizing c scanned node with
  | zero => exact .refl hw
  | succ turns ih =>
    cases node with
    | none => exact .refl hw
    | some i =>
      rw [cleanupLoop]
      split
      · split
        · exact (Eases.removeExpiredNode hw).trans (ih _ _ (Eases.removeExpiredNode hw).weights)
        · exact ih _ _ hw
      · exact .refl hw

/-! ## The calls of S3-FIFO that only read or remove -/

protected theorem Eases.moveToTail (hpol : c.policy = .s3fifo) (hw : ∀ i, 0 ≤ c.weight i)
    (hq : c.queue i ≠ .ghost) : Eases c (moveToTail c i) := by
  simp only [moveToTail, hpol]
  cases hqueue : c.queue i with
  | main => exact .refl hw
  | ghost => exact absurd hqueue hq
  | small =>
    have hmoved : Eases c (appendMain { removeFromSmall c i with
        queue := update (removeFromSmall c i).queue i .main
        links := clearLinks (removeFromSmall c i).links i } i) := by
      refine ⟨rfl, ?_, le_rfl, hw⟩
      have hset := setKey_size_le c.map (c.key i) i
      simp only [appendMain, removeFromSmall]
      omega
    exact hmoved.trans (Eases.evictIfNeeded hpol hmoved.weights)

section
variable (hw : ∀ i, 0 ≤ c.weight i)
include hw

omit [DecidableEq K] in
protected theorem Eases.countMiss (count : Bool) : Eases c (countMiss c count) := by
  cases count with
  | false => exact .refl hw
  | true => exact .quiet hw rfl rfl rfl rfl rfl

protected theorem Eases.fetchValidNode {ign count : Bool} :
    Eases c (fetchValidNode c k ign count now).1 := by
  unfold fetchValidNode
  split
  · exact Eases.countMiss hw count
  · split
    · exact Eases.countMiss hw count
    · split
      · exact (Eases.removeExpiredNode hw).trans (Eases.countMiss (Eases.removeExpiredNode hw).weights count)
      · exact .refl hw

omit [DecidableEq K] in
protected theorem Eases.countHit : Eases c (countHit c) := .quiet hw rfl rfl rfl rfl rfl

protected theorem Eases.countKey : Eases c (countKey c k) := by
  unfold countKey
  split
  · exact .quiet hw rfl rfl rfl rfl rfl
  · exact .refl hw

end

theorem Sound.found {ign count : Bool} (h : Sound c) (hok : LookupOk c k ign now)
    (hfound : fetchValidNode c k ign count now = (c', some i)) : c' = c ∧ c.queue i ≠ .ghost := by
  obtain ⟨xs, hxs⟩ := h.rep
  rcases h.fetchValidNode count hxs hok with ⟨c'', hc, -⟩ | ⟨j, q, hc, hj, hq⟩
  · rw [hc] at hfound
    exact nomatch (Prod.mk.inj hfound).2
  · rw [hc] at hfound
    obtain ⟨hc', hji⟩ := Prod.mk.inj hfound
    obtain rfl := Option.some.inj hji
    refine ⟨hc'.symm, ?_⟩
    rw [hxs.shape.queue q j hj]
    exact hq

protected theorem Eases.get (h : Sound c) (hok : LookupOk c k false now) (hw : ∀ i, 0 ≤ c.weight i) :
    Eases c (get c k now).1 := by
  have hfetch : Eases c (fetchValidNode c k false true now).1 := Eases.fetchValidNode hw
  simp only [get]
  rcases hfound : fetchValidNode c k false true now with ⟨c', _ | i⟩
  · rw [hfound] at hfetch
    exact hfetch
  · obtain ⟨rfl, hq⟩ := h.found hok hfound
    have hmove := Eases.moveToTail h.policy hw hq
    have hhit := hmove.trans (Eases.countHit hmove.weights)
    exact hhit.trans (Eases.countKey hhit.weights)

theorem Eases.getMany {ign : Bool} {keys : List (K × ℚ)} {acc : Cache K V × List (K × Option V)}
    (h : Sound acc.1) (hok : Meets (getManyOne ign) (fun acc q => LookupOk acc.1 q.1 ign q.2) acc keys)
    (hw : ∀ i, 0 ≤ acc.1.weight i) : Eases acc.1 (keys.foldl (getManyOne ign) acc).1 := by
  induction keys generalizing acc with
  | nil => exact .refl hw
  | cons p keys ih =>
    have hone : Eases acc.1 (getManyOne ign acc p).1 := by
      have hfetch : Eases acc.1 (fetchValidNode acc.1 p.1 ign true p.2).1 :=
        Eases.fetchValidNode hw
      simp only [getManyOne]
      rcases hfound : fetchValidNode acc.1 p.1 ign true p.2 with ⟨c', _ | i⟩
      · rw [hfound] at hfetch
        exact hfetch
      · obtain ⟨hc', hq⟩ := h.found hok.1 hfound
        subst hc'
        have hmove := Eases.moveToTail h.policy hw hq
        exact hmove.trans (Eases.countHit hmove.weights)
    exact hone.trans (ih (h.getMany (show Meets (getManyOne ign) _ acc [p] from ⟨hok.1, trivial⟩)) hok.2 hone.weights)

protected theorem Eases.touch {ttl : Option Ttl} (h : Sound c) (hok : LookupOk c k false now)
    (hw : ∀ i, 0 ≤ c.weight i) : Eases c (step c (.touch k ttl now)).1 := by
  have hfetch : Eases c (fetchValidNode c k false false now).1 := Eases.fetchValidNode hw
  simp only [step, touch]
  rcases hfound : fetchValidNode c k false false now with ⟨c', _ | i⟩
  · rw [hfound] at hfetch
    exact hfetch
  · obtain ⟨rfl, hq⟩ := h.found hok hfound
    cases ttl with
    | none => exact Eases.moveToTail h.policy hw hq
    | some ttl =>
      cases hx : expiresAtOf ttl now with
      | error e =>
        simp only [hx]
        exact .refl hw
      | ok x =>
        simp only [hx]
        have hnote : Eases c' { c' with expiresAt := update c'.expiresAt i x } :=
          .quiet hw rfl rfl rfl rfl rfl
        exact hnote.trans (Eases.moveToTail h.policy hw hq)

protected theorem Eases.delete (hw : ∀ i, 0 ≤ c.weight i) : Eases c (delete c k).1 := by
  have habort := Eases.abortInflight hw (some k)
  simp only [delete]
  split
  · exact habort
  · exact habort.trans (Eases.unlinked habort.weights _ _)

theorem Eases.fetch (hw : ∀ i, 0 ≤ c.weight i) : Eases c (if hasInflight c (some k) then c
    else addInflight (countMiss c true) k) := by
  split
  · exact .refl hw
  · exact .quiet hw rfl rfl rfl rfl rfl

protected theorem Eases.refreshStaleEntry (hw : ∀ i, 0 ≤ c.weight i) : Eases c (refreshStaleEntry c k) := by
  unfold refreshStaleEntry
  split
  · exact .refl hw
  · split <;> exact .quiet hw rfl rfl rfl rfl rfl

theorem Sound.getOrSet_rule {factory : Factory V} {ttl : Option Ttl} {weight : Option Weight}
    {swr : Option Bool} {setNow : ℚ} {P : Cache K V → Prop} (h : Sound c)
    (hmiss : P (produce (countMiss c true) k factory ttl weight setNow).1)
    (hgone : ∀ {qs i q}, lookup c k = some i → Rep c qs → i ∈ qs q → q ≠ .ghost → c.queue i ≠ .ghost →
      takesOut c factory swr now i →
        P (produce (countMiss (removeExpiredNode c i) true) k factory ttl weight setNow).1)
    (hhit : ∀ {i}, c.queue i ≠ .ghost → Sound (moveToTail c i) → P (countHit (moveToTail c i)))
    (hstale : ∀ {i}, c.queue i ≠ .ghost →
      Sound { countHit (moveToTail c i) with
        counters := { (countHit (moveToTail c i)).counters with
          staleServes := (countHit (moveToTail c i)).counters.staleServes + 1 } } →
      P (refreshStaleEntry { countHit (moveToTail c i) with
        counters := { (countHit (moveToTail c i)).counters with
          staleServes := (countHit (moveToTail c i)).counters.staleServes + 1 } } k)) :
    P (getOrSet c k factory ttl weight swr now setNow).1 := by
  obtain ⟨qs, hrep⟩ := h.rep
  rw [getOrSet_eq]
  cases hl : lookup c k with
  | none =>
    have hfind : findNode c k (swr.getD c.allowStale) now = (c, none) := by
      cases hallow : swr.getD c.allowStale <;> simp [findNode, fetchValidNode, hl, countMiss]
    rw [hfind]
    exact hmiss
  | some i =>
    obtain ⟨q, hi, hk⟩ := hrep.lookup hl
    have hqueue := hrep.shape.queue q i hi
    by_cases hq : q = .ghost
    · -- a ghost is missing
      subst hq
      have hget : c.map.get k = none := hrep.shape.get_none hi hk (by decide : Queue.main ≠ .ghost)
      have hfind : findNode c k (swr.getD c.allowStale) now = (c, none) := by
        cases hallow : swr.getD c.allowStale <;>
          simp [findNode, fetchValidNode, hl, countMiss, h.policy, hget, hqueue]
      rw [hfind]
      exact hmiss
    · have hnode : c.queue i ≠ .ghost := by
        rw [hqueue]
        exact hq
      have hgone := hgone hl hrep hi hq hnode
      have hserve : P (serveFound c k factory ttl weight now setNow i).1 := by
        have hused : Sound (moveToTail c i) := h.moveToTail hrep hi hq
        unfold serveFound
        cases hexp : expiredAt c i now with
        | false => exact hhit hnode hused
        | true =>
          cases hfun : factory.isFunction && staleServable c i now with
          | true => exact hstale hnode (hused.congr rfl rfl rfl rfl)
          | false => exact hgone (by simp [takesOut, hexp, hfun])
      cases hallow : swr.getD c.allowStale with
      | true =>
        have hfind : findNode c k true now = (c, some i) := by
          simp [findNode, hl, hnode]
        rw [hfind]
        exact hserve
      | false =>
        by_cases hexp : now ≠ 0 ∧ expiredAt c i now
        · have hfind : findNode c k false now = (countMiss (removeExpiredNode c i) false, none) := by
            simp [findNode, fetchValidNode, hl, hnode, hexp]
          rw [hfind]
          exact hgone (by simp [takesOut, hallow, hexp])
        · have hfind : findNode c k false now = (c, some i) := by
            simp [findNode, fetchValidNode, hl, hnode, hexp]
          rw [hfind]
          exact hserve

theorem Eases.serveStale (h : Sound c) (hw : ∀ i, 0 ≤ c.weight i) (hq : c.queue i ≠ .ghost) :
    Eases c (refreshStaleEntry { countHit (moveToTail c i) with
      counters := { (countHit (moveToTail c i)).counters with
        staleServes := (countHit (moveToTail c i)).counters.staleServes + 1 } } k) := by
  have hmove := Eases.moveToTail h.policy hw hq
  have hserve : Eases (moveToTail c i) { countHit (moveToTail c i) with
      counters := { (countHit (moveToTail c i)).counters with
        staleServes := (countHit (moveToTail c i)).counters.staleServes + 1 } } :=
    .quiet hmove.weights rfl rfl rfl rfl rfl
  exact (hmove.trans hserve).trans (Eases.refreshStaleEntry hserve.weights)

protected theorem Eases.getOrSetAsync {swr : Option Bool} (h : Sound c) (hw : ∀ i, 0 ≤ c.weight i) :
    Eases c (getOrSetAsync c k swr now) := by
  obtain ⟨xs, hxs⟩ := h.rep
  simp only [getOrSetAsync]
  cases hget : c.map.get k with
  | none => exact Eases.fetch hw
  | some i =>
    have hi : i ∈ xs .main := (((hxs.shape.index .main).get_iff k i).mp hget).1
    have hq : c.queue i ≠ .ghost := by
      rw [hxs.shape.queue .main i hi]
      simp
    have hmove := Eases.moveToTail h.policy hw hq
    simp only
    split
    · split
      · exact Eases.serveStale h hw hq
      · exact (Eases.removeExpiredNode hw).trans (Eases.fetch (Eases.removeExpiredNode hw).weights)
    · exact hmove.trans (Eases.countHit hmove.weights)

/-! ## The calls of S3-FIFO that store -/

def smallWeights (c : Cache K V) : List ℚ := (walk c.links.next c.nextNode c.small.head).map c.weight

def SmallFits (c : Config K V) (weights : List ℚ) : Prop :=
  Fits c (weights.drop (weights.length - c.smallMaxSize.toNat))

instance (c : Config K V) (weights : List ℚ) : Decidable (SmallFits c weights) :=
  inferInstanceAs (Decidable (Fits _ _))

section
variable {qs : Queue → List ℕ} {l r : List ℕ} {q : Queue} {v : V} {w x : ℚ}

omit [DecidableEq K] in
protected theorem Rep.smallWeights (h : Rep c qs) : smallWeights c = (qs .small).map c.weight := by
  have hlinked : Linked c.links c.small (qs .small) := h.shape.chains.linked .small
  rw [smallWeights, hlinked.walk_next (h.shape.length_le .small)]

/-- An eviction leaves the cache within its limits just if what stays in Small fits. -/
theorem Rep.evicted_fits (h : Rep c qs) (hpol : c.policy = .s3fifo) (hmax : 0 ≤ c.smallMaxSize)
    (hw : ∀ i, 0 ≤ c.weight i) :
    overLimit (evictIfNeeded c) ((evictIfNeeded c).map.size +
      (evictIfNeeded c).smallSize) = false ↔
      SmallFits c.toConfig ((qs .small).map c.weight) := by
  obtain ⟨qs', hrep, hsmall, hmain, hconfig, hsame⟩ := h.evictIfNeeded hpol hmax
  have hkept : ((qs .small).map c.weight).drop
      (((qs .small).map c.weight).length - c.smallMaxSize.toNat) = (qs' .small).map c.weight := by
    rw [List.length_map, ← List.map_drop, hsmall]
  rw [hrep.overLimit_iff, hconfig, hsame.weights, SmallFits, hkept]
  constructor
  · intro hfits
    refine hfits.sublist ((List.sublist_append_right _ _).map _) fun x hx => ?_
    obtain ⟨i, -, rfl⟩ := List.mem_map.mp hx
    exact hw i
  · intro hfits
    rcases @trim_meets _ (fun ys => decide (Fits c.toConfig ((ys ++ qs' .small).map c.weight)))
      (qs .main) with hmeets | hnil
    · rw [hmain]
      exact of_decide_eq_true hmeets
    · rw [hmain, hnil]
      exact hfits

structure QueuesHeld (c : Cache K V) : Prop extends Sound c where
  smallMaxSize : 0 ≤ c.smallMaxSize
  weights : ∀ i, 0 ≤ c.weight i
  maxEntries : ∀ n ∈ c.maxEntries, 0 ≤ n
  maxWeight : ∀ w ∈ c.maxWeight, 0 ≤ w
  fits : overLimit c (c.map.size + c.smallSize) = false

/-- A new entry does not go to Main. -/
theorem insertNode_map (hpol : c.policy = .s3fifo) : (insertNode c k v w x).map = c.map := by
  have htake : (takeNode c).1.map = c.map ∧ (takeNode c).1.policy = c.policy := by
    cases hp : c.pool <;> simp only [takeNode, hp, and_self]
  have hpol' : (takeNode c).1.policy = .s3fifo := htake.2.trans hpol
  simp only [insertNode, allocNode, append, hpol', if_true, appendSmall]
  exact htake.1

namespace QueuesHeld

omit [DecidableEq K] in
theorem small_fits (h : QueuesHeld c) (hrep : Rep c qs) {ws : List ℚ}
    (hsub : ws.Sublist ((qs .small).map c.weight)) : SmallFits c.toConfig ws := by
  have hfits := hrep.overLimit_iff.mp h.fits
  have hall : (ws.drop (ws.length - c.smallMaxSize.toNat)).Sublist
      ((qs .main ++ qs .small).map c.weight) :=
    ((List.drop_sublist _ _).trans hsub).trans ((List.sublist_append_right _ _).map _)
  refine hfits.sublist hall fun x hx => ?_
  obtain ⟨i, -, rfl⟩ := List.mem_map.mp hx
  exact h.weights i

omit [DecidableEq K] in
/-- What eases a cache that is held leaves one that is. -/
theorem eased (h : QueuesHeld c) (heases : Eases c c') (hsound : Sound c') : QueuesHeld c' := by
  have hconfig := heases.config
  refine ⟨hsound, ?_, heases.weights, ?_, ?_, heases.fits h.fits⟩ <;> rw [hconfig]
  · exact h.smallMaxSize
  · exact h.maxEntries
  · exact h.maxWeight

theorem evicted (h : QueuesHeld c) (hconfig : c'.toConfig = c.toConfig) (hrep : Rep c' qs)
    (hw : ∀ i, 0 ≤ c'.weight i) (hfits : SmallFits c.toConfig ((qs .small).map c'.weight)) :
    QueuesHeld (evictIfNeeded c') := by
  have hpol : c'.policy = .s3fifo := by
    rw [hconfig]
    exact h.policy
  have hmax : 0 ≤ c'.smallMaxSize := by
    rw [hconfig]
    exact h.smallMaxSize
  have heases := Eases.evictIfNeeded hpol hw
  have hconfig' := heases.config.trans hconfig
  have hsound : Sound c' := ⟨by rw [hconfig]; exact h.plain, qs, hrep⟩
  rw [← hconfig] at hfits
  refine ⟨hsound.evictIfNeeded, ?_, heases.weights, ?_, ?_, (hrep.evicted_fits hpol hmax hw).mpr hfits⟩ <;>
    rw [hconfig']
  · exact h.smallMaxSize
  · exact h.maxEntries
  · exact h.maxWeight

omit [DecidableEq K] in
theorem write_nonneg {f : Fields K V} (h : ∀ i, 0 ≤ f.weight i) (hw : 0 ≤ w) :
    ∀ j, 0 ≤ (f.write i v w x).weight j := update_nonneg h hw i

omit [DecidableEq K] in
/-- A write does not touch what others weigh. -/
theorem write_weights {f : Fields K V} {ys : List ℕ} (hi : i ∉ ys) :
    ys.map (f.write i v w x).weight = ys.map f.weight :=
  List.map_congr_left fun j hj => update_of_ne (by rintro rfl; exact hi hj) _ _

/-- A value is written, and what is too much evicted. -/
theorem rewritten (h : QueuesHeld c) (hrep : Rep c qs) (hsplit : qs q = l ++ i :: r) (hw : 0 ≤ w) :
    QueuesHeld (evictIfNeeded (updateExisting c i v w x)) := by
  have hi : i ∈ qs q := by simp [hsplit]
  rcases hrep.updateExisting (v := v) (w := w) (x := x) h.policy hsplit with
    ⟨rfl, hrep', hconfig, hfields⟩ | ⟨hq, c', hevict, hrep', hconfig, hfields⟩
  · have hweights : (updateExisting c i v w x).weight = (c.toFields.write i v w x).weight := by
      rw [hfields]
    refine h.evicted hconfig hrep' ?_ ?_
    · rw [hweights]
      exact write_nonneg h.weights hw
    · have hnot : i ∉ qs .small := fun hs =>
        nomatch hrep.shape.chains.apart .main .small i hi hs
      rw [hweights, write_weights hnot]
      exact h.small_fits hrep (List.Sublist.refl _)
  · have hweights : c'.weight = (c.toFields.write i v w x).weight := by rw [hfields]
    have hfirst : QueuesHeld (evictIfNeeded c') := by
      refine h.evicted hconfig hrep' ?_ ?_
      · rw [hweights]
        exact write_nonneg h.weights hw
      · have hsub : (update (update qs q (l ++ r)) .main (qs .main ++ [i]) .small).Sublist
            (qs .small) := by
          rw [update_of_ne (by simp)]
          by_cases hqs : q = .small
          · subst hqs
            rw [update_self, hsplit]
            exact (List.sublist_cons_self i r).append_left l
          · rw [update_of_ne (Ne.symm hqs)]
        have hnot : i ∉ update (update qs q (l ++ r)) .main (qs .main ++ [i]) .small := by
          intro hs
          exact nomatch hrep'.shape.chains.apart .main .small i (by simp) hs
        rw [hweights, write_weights hnot]
        exact h.small_fits hrep (hsub.map _)
    rw [hevict]
    exact hfirst.eased (Eases.evictIfNeeded hfirst.policy hfirst.weights) hfirst.toSound.evictIfNeeded

theorem inserted_small (h : Sound c) (hfresh : ∀ q, (c.toHeap.index q).get k = none) :
    smallWeights (insertNode c k v w x) = smallWeights c ++ [w] := by
  obtain ⟨qs, hrep⟩ := h.rep
  have hrep' := hrep.insertNode (v := v) (w := w) (e := x) hfresh (by simp [h.policy])
  have hfields := (insertNode_frame (c := c) (k := k) (v := v) (w := w) (e := x)).2.1
  have hi : (takeNode c).2 ∉ qs .small := hrep.shape.takeNode.held_notMem List.mem_cons_self .small
  have hq : entryQueue c.policy = .small := by
    rw [h.policy]
    rfl
  have hweights : (insertNode c k v w x).weight = update c.weight (takeNode c).2 w :=
    congrArg Fields.weight hfields
  have hold : (qs .small).map (update c.weight (takeNode c).2 w) = (qs .small).map c.weight :=
    List.map_congr_left fun j hj => update_of_ne (by rintro rfl; exact hi hj) _ _
  rw [hrep'.smallWeights, hrep.smallWeights, hq, update_self, List.map_append, hweights, hold,
    List.map_singleton, update_self]

theorem inserted (h : QueuesHeld c) (hfresh : ∀ q, (c.toHeap.index q).get k = none) (hw : 0 ≤ w)
    (hfits : SmallFits c.toConfig (smallWeights c ++ [w])) :
    QueuesHeld (evictIfNeeded (insertNode c k v w x)) := by
  have hsmall := inserted_small (v := v) (w := w) (x := x) h.toSound hfresh
  obtain ⟨qs, hrep⟩ := (h.toSound.insertNode (v := v) (w := w) (x := x) hfresh).rep
  refine h.evicted insertNode_frame.1 hrep (insertNode_weights hw h.weights) ?_
  rw [← hrep.smallWeights, hsmall]
  exact hfits

theorem store {weight : Option Weight} (h : QueuesHeld c) (hok : lookup c k = none →
      oversized c (computeWeight c.weightFn v weight) = false →
        SmallFits c.toConfig (smallWeights c ++ [computeWeight c.weightFn v weight])) :
    QueuesHeld (store c k v x weight).1 := by
  have hw := computeWeight_nonneg c.weightFn v weight
  have hcount : QueuesHeld (countWeightError c v weight) := by
    refine h.eased ?_ (h.countWeightError v weight)
    unfold countWeightError
    split
    · exact .quiet h.weights rfl rfl rfl rfl rfl
    · exact .refl h.weights
  have hconfig : (countWeightError c v weight).toConfig = c.toConfig := countWeightError_toConfig
  have hsame : lookup (countWeightError c v weight) k = lookup c k ∧
      smallWeights (countWeightError c v weight) = smallWeights c := by
    unfold countWeightError
    split <;> exact ⟨rfl, rfl⟩
  rw [store_eq]
  split
  · exact hcount.eased (.quiet hcount.weights rfl rfl rfl rfl rfl) (hcount.congr rfl rfl rfl rfl)
  · next hover =>
    simp only []
    cases hl : lookup c k with
    | none =>
      have hl' := hsame.1.trans hl
      have hput : putValue (countWeightError c v weight) k v
          (computeWeight c.weightFn v weight) x =
          (insertNode (countWeightError c v weight) k v (computeWeight c.weightFn v weight) x, true) := by
        simp only [putValue, hl', insertNew_plain hcount.plain.2]
      have hinsert := hcount.toSound.insertNode (v := v) (w := computeWeight c.weightFn v weight) (x := x)
        (lookup_none hcount.policy hl')
      rw [hput]
      simp only [if_true, countKey_plain hinsert.plain.2]
      refine hcount.inserted (lookup_none hcount.policy hl') hw ?_
      rw [hconfig, hsame.2]
      exact hok hl (by simpa using hover)
    | some i =>
      have hl' := hsame.1.trans hl
      obtain ⟨qs, hrep⟩ := hcount.rep
      obtain ⟨q, hi, -⟩ := hrep.lookup hl'
      obtain ⟨l, r, hsplit⟩ := List.append_of_mem hi
      have hupdate := hcount.toSound.updateExisting (v := v) (w := computeWeight c.weightFn v weight)
        (x := x) hrep hi
      have hput : putValue (countWeightError c v weight) k v
          (computeWeight c.weightFn v weight) x =
          (updateExisting (countWeightError c v weight) i v (computeWeight c.weightFn v weight) x,
            true) := by
        simp only [putValue, hl']
      rw [hput]
      simp only [if_true, countKey_plain hupdate.plain.2]
      exact hcount.rewritten hrep hsplit hw

end QueuesHeld

/-- What the new entries of a `setMany` weigh. -/
def newWeights (c : Cache K V) (weight : Option Weight) (entries : List (K × V)) : List ℚ :=
  entries.filterMap fun p =>
    if oversized c (computeWeight c.weightFn p.2 weight) || (c.map.get p.1).isSome then none
    else some (computeWeight c.weightFn p.2 weight)

/-- A cache of three queues in the middle of a `setMany` that began with `c`: Main holds the same
nodes, and Small has entries of these weights. -/
structure Filled (c c' : Cache K V) (small : List ℚ) : Prop where
  sound : Sound c'
  config : c'.toConfig = c.toConfig
  map : c'.map = c.map
  weights : ∀ i, 0 ≤ c'.weight i
  small : smallWeights c' = small

namespace Filled

variable {ws : List ℚ} {weight : Option Weight}

theorem one {p : K × V} (h : Filled c c' ws) (hok : NewKeyOk weight c' p) :
    Filled c (setManyOne x weight c' p) (ws ++ newWeights c weight [p]) := by
  have hw := computeWeight_nonneg c'.weightFn p.2 weight
  have hcount : Sound (countWeightError c' p.2 weight) := h.sound.countWeightError p.2 weight
  have hconfig : (countWeightError c' p.2 weight).toConfig = c'.toConfig := countWeightError_toConfig
  have hheap : (countWeightError c' p.2 weight).toHeap = c'.toHeap := by
    unfold countWeightError
    split <;> rfl
  have hfields : (countWeightError c' p.2 weight).toFields = c'.toFields := by
    unfold countWeightError
    split <;> rfl
  have hover : ∀ w, oversized (countWeightError c' p.2 weight) w = oversized c w := by
    intro w
    simp only [oversized, hconfig, h.config]
  have hover' : ∀ w, oversized c' w = oversized c w := by
    intro w
    simp only [oversized, h.config]
  have hsmall : smallWeights (countWeightError c' p.2 weight) = ws := by
    rw [← h.small, smallWeights, smallWeights, hheap, hfields]
  have hweights : ∀ i, 0 ≤ (countWeightError c' p.2 weight).weight i := by
    rw [hfields]
    exact h.weights
  simp only [setManyOne, newWeights, List.filterMap_cons, List.filterMap_nil, hover, hheap, h.map]
  rw [show c'.weightFn = c.weightFn by rw [h.config]] at hw ⊢
  cases ho : oversized c (computeWeight c.weightFn p.2 weight) with
  | true =>
    simp only [if_true, Bool.true_or, List.append_nil]
    exact ⟨hcount.congr rfl rfl rfl rfl, hconfig.trans h.config,
      (congrArg Heap.map hheap).trans h.map, hweights, hsmall⟩
  | false =>
    simp only [Bool.false_eq_true, if_false, Bool.false_or]
    cases hget : c.map.get p.1 with
    | some i =>
      obtain ⟨qs, hrep⟩ := hcount.rep
      have hi : i ∈ qs .main := by
        refine (((hrep.shape.index .main).get_iff p.1 i).mp ?_).1
        show (countWeightError c' p.2 weight).map.get p.1 = some i
        rw [hheap, h.map, hget]
      obtain ⟨l, r, hsplit⟩ := List.append_of_mem hi
      have hqueue : (countWeightError c' p.2 weight).queue i = .main := hrep.shape.queue .main i hi
      have hupdate := hcount.updateExisting (v := p.2) (w := computeWeight c.weightFn p.2 weight)
        (x := x) hrep hi
      have hnot : i ∉ qs .small := by
        intro hs
        cases hrep.shape.chains.apart .main .small i hi hs
      have heq : updateExisting (countWeightError c' p.2 weight) i p.2
          (computeWeight c.weightFn p.2 weight) x = { countWeightError c' p.2 weight with
            currentWeight := (countWeightError c' p.2 weight).currentWeight -
              (countWeightError c' p.2 weight).weight i + computeWeight c.weightFn p.2 weight
            value := update (countWeightError c' p.2 weight).value i (some p.2)
            weight := update (countWeightError c' p.2 weight).weight i
              (computeWeight c.weightFn p.2 weight)
            expiresAt := update (countWeightError c' p.2 weight).expiresAt i x } := by
        simp only [updateExisting, moveToTail, hcount.policy, hqueue]
      have hwalk : walk (countWeightError c' p.2 weight).links.next
          (countWeightError c' p.2 weight).nextNode (countWeightError c' p.2 weight).small.head =
          qs .small :=
        (hrep.shape.chains.linked .small).walk_next (hrep.shape.length_le .small)
      simp only [Option.isSome_some, if_true, List.append_nil, countKey_plain hupdate.plain.2]
      rw [heq] at hupdate ⊢
      refine ⟨hupdate, hconfig.trans h.config, (congrArg Heap.map hheap).trans h.map,
        update_nonneg hweights hw i, ?_⟩
      rw [← hsmall, hrep.smallWeights]
      simp only [smallWeights, hwalk]
      exact List.map_congr_left fun j hj => update_of_ne (by rintro rfl; exact hnot hj) _ _
    | none =>
      obtain ⟨hsmallMap, hghostMap⟩ := hok
        ((hover' _).trans (by rw [show c'.weightFn = c.weightFn by rw [h.config]]; exact ho))
        (by rw [h.map]; exact hget)
      have hfresh : ∀ q, ((countWeightError c' p.2 weight).toHeap.index q).get p.1 = none := by
        intro q
        rw [hheap]
        cases q
        · show c'.map.get p.1 = none
          rw [h.map]
          exact hget
        · exact hsmallMap
        · exact hghostMap
      have hinsert := hcount.insertNode (v := p.2) (w := computeWeight c.weightFn p.2 weight) (x := x) hfresh
      have hnew := QueuesHeld.inserted_small (v := p.2) (w := computeWeight c.weightFn p.2 weight) (x := x)
        hcount hfresh
      simp only [Option.isSome_none, Bool.false_eq_true, if_false, insertNew_plain hcount.plain.2,
        countKey_plain hinsert.plain.2]
      refine ⟨hinsert, insertNode_frame.1.trans (hconfig.trans h.config), ?_,
        insertNode_weights hw hweights, hnew.trans (by rw [hsmall])⟩
      rw [insertNode_map hcount.policy, hheap, h.map]

theorem all {entries : List (K × V)} (h : Filled c c' ws)
    (hok : Meets (setManyOne x weight) (NewKeyOk weight) c' entries) :
    Filled c (entries.foldl (setManyOne x weight) c') (ws ++ newWeights c weight entries) := by
  induction entries generalizing c' ws with
  | nil =>
    rw [newWeights, List.filterMap_nil, List.append_nil]
    exact h
  | cons p entries ih =>
    have hnew : newWeights c weight (p :: entries) =
        newWeights c weight [p] ++ newWeights c weight entries :=
      by
      unfold newWeights
      exact List.filterMap_append (l := [p])
    rw [hnew, ← List.append_assoc]
    exact ih (h.one hok.1) hok.2

end Filled

namespace QueuesHeld

protected theorem setMany {weight : Option Weight} {entries : List (K × V)} (h : QueuesHeld c)
    (hok : Meets (setManyOne x weight) (NewKeyOk weight) c entries)
    (hfits : SmallFits c.toConfig (smallWeights c ++ newWeights c weight entries)) :
    QueuesHeld (evictIfNeeded (entries.foldl (setManyOne x weight) c)) := by
  have hfilled : Filled c c (smallWeights c) := ⟨h.toSound, rfl, rfl, h.weights, rfl⟩
  have hall := hfilled.all hok
  obtain ⟨qs, hrep⟩ := hall.sound.rep
  refine h.evicted hall.config hrep hall.weights ?_
  rw [← hrep.smallWeights, hall.small]
  exact hfits

protected theorem resize (h : QueuesHeld c) (n m : Option ℚ)
    (hfits : SmallFits (limited c (.resize n m)).toConfig (smallWeights c)) :
    QueuesHeld (resize c n m) := by
  obtain ⟨qs, hrep⟩ := h.rep
  obtain ⟨hentries, hweight⟩ := limited_nonneg (.resize n m) h.maxEntries h.maxWeight
  have hrep' : Rep (limited c (.resize n m)) qs :=
    ⟨⟨hrep.shape, hrep.weight, hrep.ghostWeight⟩, hrep.candidate⟩
  have heases := Eases.evictIfNeeded (c := limited c (.resize n m)) h.policy h.weights
  have hfits' := (hrep'.evicted_fits h.policy h.smallMaxSize h.weights).mpr
    (by rw [hrep.smallWeights] at hfits; exact hfits)
  have hconfig : (resize c n m).toConfig = (limited c (.resize n m)).toConfig := heases.config
  refine ⟨h.toSound.resize, ?_, heases.weights, ?_, ?_, hfits'⟩ <;> rw [hconfig]
  · exact h.smallMaxSize
  · exact hentries
  · exact hweight

end QueuesHeld

end

/-! ## The condition on a call -/

def StoreOk (c : Cache K V) (value : V) (ttl : Option Ttl) (weight : Option Weight) (now : ℚ)
    (small : List ℚ) : Prop :=
  (expiresAtOf (ttl.getD c.defaultTTL) now).isOk →
    oversized c (computeWeight c.weightFn value weight) = false →
      SmallFits c.toConfig (small ++ [computeWeight c.weightFn value weight])

instance (c : Cache K V) (value : V) (ttl : Option Ttl) (weight : Option Weight) (now : ℚ)
    (small : List ℚ) : Decidable (StoreOk c value ttl weight now small) :=
  inferInstanceAs (Decidable (_ → _ → _))

def SmallOk (c : Cache K V) : Event K V → Prop
  | .set key value ttl weight now =>
    lookup c key = none → StoreOk c value ttl weight now (smallWeights c)
  | .setMany entries ttl weight now => (expiresAtOf (ttl.getD .never) now).isOk →
      SmallFits c.toConfig (smallWeights c ++ newWeights c weight entries)
  | .resize n w => SmallFits (limited c (.resize n w)).toConfig (smallWeights c)
  | .get _ _ | .peek _ _ | .has _ _ _ | .getMany _ _ | .touch _ _ _ | .delete _ | .evict _
  | .invalidate _ | .getOrSetAsync _ _ _ | .finishFetch _ _ | .cleanupExpiredUpTo _ _ | .entries _ =>
    True

instance (c : Cache K V) : ∀ ev, Decidable (SmallOk c ev)
  | .set _ _ _ _ _ => inferInstanceAs (Decidable (_ → _))
  | .setMany _ _ _ _ => inferInstanceAs (Decidable (_ → _))
  | .resize _ _ => inferInstanceAs (Decidable (SmallFits _ _))
  | .get _ _ | .peek _ _ | .has _ _ _ | .getMany _ _ | .touch _ _ _ | .delete _ | .evict _
  | .invalidate _ | .getOrSetAsync _ _ _ | .finishFetch _ _ | .cleanupExpiredUpTo _ _ | .entries _ =>
    inferInstanceAs (Decidable True)

/-- What `getOrSet` stores where the key is missing. -/
def Factory.stored : Factory V → Option V
  | .value v | .returns v => some v
  | .promises | .throws _ => none

def otherSmallWeights (c : Cache K V) (key : K) : List ℚ :=
  ((walk c.links.next c.nextNode c.small.head).filter fun i => lookup c key ≠ some i).map c.weight

def QueuesOk (c : Cache K V) : Call K V → Prop
  | .event ev => RoutesOk c ev ∧ SmallOk c ev
  | .getOrSet key factory ttl weight swr now setNow =>
    (∀ i ∈ lookup c key, takesOut c factory swr now i → c.queue i ≠ .ghost → Detachable c i) ∧
      ((∀ i ∈ lookup c key, takesOut c factory swr now i ∧ c.queue i ≠ .ghost) →
        ∀ v ∈ factory.stored, StoreOk c v ttl weight setNow (otherSmallWeights c key))
  | .clear => True

instance (c : Cache K V) : ∀ cl, Decidable (QueuesOk c cl)
  | .event _ => inferInstanceAs (Decidable (_ ∧ _))
  | .getOrSet key factory ttl weight swr now setNow => inferInstanceAs (Decidable
      ((∀ i ∈ lookup c key, takesOut c factory swr now i → c.queue i ≠ .ghost → Detachable c i) ∧
        ((∀ i ∈ lookup c key, takesOut c factory swr now i ∧ c.queue i ≠ .ghost) →
          ∀ v ∈ factory.stored, StoreOk c v ttl weight setNow (otherSmallWeights c key))))
  | .clear => inferInstanceAs (Decidable True)

namespace QueuesHeld

protected theorem set {key : K} {value : V} {ttl : Option Ttl} {weight : Option Weight} (h : QueuesHeld c)
    (hok : lookup c key = none → StoreOk c value ttl weight now (smallWeights c)) :
    QueuesHeld (settleCall c (set c key value ttl weight now) (Outcome.flag (K := K) (V := V))).1 := by
  simp only [set]
  cases hx : expiresAtOf (ttl.getD c.defaultTTL) now with
  | error e => exact h
  | ok x =>
    exact h.store fun hl ho => hok hl (by rw [hx]; rfl) ho

protected theorem step {ev : Event K V} (h : QueuesHeld c) (hroutes : RoutesOk c ev) (hsmall : SmallOk c ev) :
    QueuesHeld (step c ev).1 := by
  have hsound := h.toSound.step hroutes
  cases ev with
  | set key value ttl weight now => exact h.set hsmall
  | setMany entries ttl weight now =>
    simp only [step, setMany]
    cases hx : expiresAtOf (ttl.getD .never) now with
    | error e => exact h
    | ok x =>
      simp only [RoutesOk, hx] at hroutes
      exact h.setMany hroutes (hsmall (by rw [hx]; rfl))
  | resize n w => exact h.resize n w hsmall
  | get key now => exact h.eased (Eases.get h.toSound hroutes h.weights) hsound
  | peek key now =>
    refine h.eased ?_ hsound
    have hfetch : Eases c (fetchValidNode c key false false now).1 :=
      Eases.fetchValidNode h.weights
    exact hfetch
  | has key ign now =>
    refine h.eased ?_ hsound
    have hfetch : Eases c (fetchValidNode c key ign false now).1 :=
      Eases.fetchValidNode h.weights
    exact hfetch
  | getMany keys ign =>
    have hstart : Sound ((c, []) : Cache K V × List (K × Option V)).1 := h.toSound
    exact h.eased (Eases.getMany hstart hroutes h.weights) hsound
  | touch key ttl now => exact h.eased (Eases.touch h.toSound hroutes h.weights) hsound
  | delete key => exact h.eased (Eases.delete h.weights) hsound
  | evict n =>
    refine h.eased ?_ hsound
    simp only [step, evict]
    split
    · exact .refl h.weights
    · have hcount := Eases.evictCount n.toNat h.weights
      exact hcount.trans (Eases.settleCandidate hcount.weights)
  | invalidate p =>
    refine h.eased ?_ hsound
    have hloop := Eases.invalidateLoop (doomedNodes c p) 0 h.weights
    simp only [step, invalidate]
    refine hloop.trans ?_
    unfold realignCandidate
    split
    · exact .refl hloop.weights
    · exact .quiet hloop.weights rfl rfl rfl rfl rfl
  | getOrSetAsync key swr now => exact h.eased (Eases.getOrSetAsync h.toSound h.weights) hsound
  | finishFetch key abort =>
    refine h.eased ?_ hsound
    cases abort with
    | false => exact .quiet h.weights rfl rfl rfl rfl rfl
    | true =>
      have habort := Eases.abortInflight h.weights (some key)
      exact habort.trans (.quiet habort.weights rfl rfl rfl rfl rfl)
  | cleanupExpiredUpTo n now =>
    refine h.eased ?_ hsound
    have hloop := Eases.cleanupLoop now n (c.nextNode + 1) 0 (sweepStart c) h.weights
    exact hloop.trans (.quiet hloop.weights rfl rfl rfl rfl rfl)
  | entries order => exact h

omit [DecidableEq K] in
theorem storeOk_congr {value : V} {ttl : Option Ttl} {weight : Option Weight} {small : List ℚ}
    (hconfig : c'.toConfig = c.toConfig) (h : StoreOk c value ttl weight now small) :
    StoreOk c' value ttl weight now small := by
  simpa only [StoreOk, oversized, hconfig] using h

omit [DecidableEq K] in
theorem countMiss_held (h : QueuesHeld c) (count : Bool) : QueuesHeld (countMiss c count) :=
  h.eased (Eases.countMiss h.weights count) h.toSound.countMiss

protected theorem produce (factory : Factory V) (ttl : Option Ttl) (weight : Option Weight) (h : QueuesHeld c)
    (hok : lookup c k = none → ∀ v ∈ factory.stored, StoreOk c v ttl weight now (smallWeights c)) :
    QueuesHeld (produce (countMiss c true) k factory ttl weight now).1 := by
  have hmiss := h.countMiss_held true
  have hset : ∀ v, (lookup c k = none → StoreOk c v ttl weight now (smallWeights c)) →
      QueuesHeld (produce (countMiss c true) k (.value v) ttl weight now).1 := by
    intro v hv
    have hstored : QueuesHeld (settleCall (countMiss c true) (set (countMiss c true) k v ttl
        weight now) (Outcome.flag (K := K) (V := V))).1 := hmiss.set hv
    simp only [produce]
    cases hx : set (countMiss c true) k v ttl weight now with
    | error e => exact hmiss
    | ok res =>
      rw [hx] at hstored
      exact hstored
  cases factory with
  | value v | returns v => exact hset v fun hl => hok hl v rfl
  | promises | throws e => exact hmiss

theorem removed {qs : Queue → List ℕ} {q : Queue} (h : QueuesHeld c) (hrep : Rep c qs) (hi : i ∈ qs q)
    (hl : lookup c k = some i) (hq : q ≠ .ghost) (hd : Detachable c i) :
    QueuesHeld (removeExpiredNode c i) ∧ smallWeights (removeExpiredNode c i) = otherSmallWeights c k ∧
      (removeExpiredNode c i).toConfig = c.toConfig := by
  have heases := Eases.removeExpiredNode (i := i) h.weights
  refine ⟨h.eased heases (h.toSound.unlinked hrep hi hd), ?_, heases.config⟩
  obtain ⟨l, r, hsplit⟩ := List.append_of_mem hi
  have hrep' : Rep (removeExpiredNode c i) (update qs q (l ++ r)) :=
    hrep.unlinked _ _ hsplit hd fun _ => h.policy
  have hwalk : walk c.links.next c.nextNode c.small.head = qs .small :=
    (hrep.shape.chains.linked .small).walk_next (hrep.shape.length_le .small)
  have hfilter : ∀ ys : List ℕ, i ∉ ys → (ys.filter fun j => decide (some i ≠ some j)) = ys := by
    intro ys hys
    refine List.filter_eq_self.mpr fun j hj => decide_eq_true ?_
    rintro ⟨⟩
    exact hys hj
  have hsmall : update qs q (l ++ r) .small =
      (qs .small).filter fun j => decide (some i ≠ some j) := by
    by_cases hqs : q = .small
    · subst hqs
      have hnot := (hrep.shape.chains.linked .small).nodup
      rw [hsplit] at hnot
      have hnot' := (List.nodup_middle.mp hnot).notMem
      rw [List.mem_append, not_or] at hnot'
      rw [update_self, hsplit, List.filter_append, List.filter_cons_of_neg (by simp),
        hfilter l hnot'.1, hfilter r hnot'.2]
    · have hnot : i ∉ qs .small := fun hs => hqs (hrep.shape.chains.apart q .small i hi hs)
      rw [update_of_ne (Ne.symm hqs), hfilter _ hnot]
  rw [hrep'.smallWeights, hsmall, otherSmallWeights, hwalk, hl]
  refine List.map_congr_left fun j hj => ?_
  have hne : j ≠ i := by
    rintro rfl
    simp at hj
  show update (unlinkNode c i false).weight i 0 j = c.weight j
  rw [unlinkNode_toFields, update_of_ne hne]

theorem getOrSet {factory : Factory V} {ttl : Option Ttl} {weight : Option Weight}
    {swr : Option Bool} {setNow : ℚ} (h : QueuesHeld c)
    (hok : QueuesOk c (.getOrSet k factory ttl weight swr now setNow)) :
    QueuesHeld (getOrSet c k factory ttl weight swr now setNow).1 := by
  obtain ⟨hdetach, hstore⟩ := hok
  apply h.toSound.getOrSet_rule
  · apply h.produce
    intro hl v hv
    have hother : otherSmallWeights c k = smallWeights c := by
      simp [otherSmallWeights, smallWeights, hl]
    exact hother ▸ hstore (by simp [hl]) v hv
  · intro qs i q hl hrep hi hq hnode htakes
    obtain ⟨hheld, hsmall, hconfig⟩ := h.removed hrep hi hl hq (hdetach i hl htakes hnode)
    refine hheld.produce _ _ _ fun _ v hv => ?_
    rw [hsmall]
    exact storeOk_congr hconfig (hstore (by simp [hl, htakes, hnode]) v hv)
  · intro i hnode hused
    have hmove := Eases.moveToTail h.policy h.weights hnode
    exact h.eased (hmove.trans (Eases.countHit hmove.weights)) (hused.congr rfl rfl rfl rfl)
  · intro i hnode hserved
    exact h.eased (Eases.serveStale h.toSound h.weights hnode) hserved.refreshStaleEntry

protected theorem clear (h : QueuesHeld c) : QueuesHeld (clear c) := by
  obtain ⟨qs, hrep⟩ := h.rep
  obtain ⟨hconfig, -⟩ := clear_frame hrep.toLayout
  have hrep' : Rep (clear c) fun _ => [] := ⟨hrep.toLayout.clear, rfl⟩
  have hsound : Sound (clear c) := ⟨by rw [hconfig]; exact h.plain, _, hrep'⟩
  refine ⟨hsound, ?_, clear_weights h.weights, ?_, ?_, ?_⟩
  · rw [hconfig]
    exact h.smallMaxSize
  · rw [hconfig]
    exact h.maxEntries
  · rw [hconfig]
    exact h.maxWeight
  · rw [hrep'.overLimit_iff, hconfig]
    simpa [Fits] using ⟨h.maxEntries, h.maxWeight⟩

end QueuesHeld

/-! ## Runs -/

/-- The condition on a call: in a cache of one list no node is taken out from under the eviction
candidate, and in one of three queues none is unlinked from the wrong one, and what an
eviction leaves in Small fits. -/
def LimitsOk (c : Cache K V) (cl : Call K V) : Prop :=
  if c.policy = .s3fifo then QueuesOk c cl else CallOk c cl

instance (c : Cache K V) (cl : Call K V) : Decidable (LimitsOk c cl) :=
  inferInstanceAs (Decidable (if c.policy = .s3fifo then QueuesOk c cl else CallOk c cl))

/-- What holds of a cache between two calls. -/
inductive Bounded (c : Cache K V) : Prop where
  | list (xs : List ℕ) (held : Held c xs)
  | queues (held : QueuesHeld c)

namespace Bounded

omit [DecidableEq K] in
theorem within (h : Bounded c) : WithinLimits c := by
  cases h with
  | list xs held =>
    obtain ⟨hentries, hweight⟩ := overLimit_iff.mp held.fits
    have hsize : (size c : ℚ) = (c.map.size : ℚ) := by
      cases hpol : c.policy with
      | s3fifo => exact absurd hpol held.policy
      | lru | slru | sieve =>
        simp only [size, hpol]
        rfl
    exact ⟨by rwa [hsize], hweight⟩
  | queues held =>
    obtain ⟨hentries, hweight⟩ := overLimit_iff.mp held.fits
    have hsize : (size c : ℚ) = (c.map.size : ℚ) + c.smallSize := by
      simp only [size, held.policy]
      push_cast
      rfl
    exact ⟨by rwa [hsize], hweight⟩

theorem call {cl : Call K V} (h : Bounded c) (hok : LimitsOk c cl) : Bounded (call c cl) := by
  unfold LimitsOk at hok
  cases h with
  | list xs held =>
    rw [if_neg held.policy] at hok
    obtain ⟨xs', held'⟩ := held.call hok
    exact .list xs' held'
  | queues held =>
    rw [if_pos held.policy] at hok
    refine .queues ?_
    cases cl with
    | event ev => exact held.step hok.1 hok.2
    | getOrSet key factory ttl weight swr now setNow => exact held.getOrSet hok
    | clear => exact held.clear

omit [DecidableEq K] in
theorem new {o : Options K V} (hnew : new o = .ok c) : Bounded c := by
  by_cases hpol : o.policy = .s3fifo
  · have hrep := Rep.new hnew
    obtain ⟨maxEntries, inflight, maxWeight, pool, rfl, hentries, hweight⟩ := new_eq_initial hnew
    have hlimit : ∀ n ∈ (initial o maxEntries inflight maxWeight pool).maxEntries, 0 ≤ n := by
      intro n hn
      obtain ⟨n', hn', rfl⟩ := Option.mem_map.mp hn
      exact Int.cast_nonneg (hentries n' hn')
    refine .queues ⟨⟨⟨hpol, by simp [initial, hpol]⟩, _, hrep⟩, ?_, fun _ => le_rfl, hlimit, hweight, ?_⟩
    · simp only [initial, hpol, if_true]
      exact le_trans (by decide) (le_max_left 1 _)
    · rw [hrep.overLimit_iff]
      simpa [Fits] using ⟨hlimit, hweight⟩
  · exact .list [] (Held.new hnew hpol)

end Bounded

/-- In a run that meets `LimitsOk` the size and the weight are within the limits in every
state, under every policy. -/
theorem limits_hold {o : Options K V} {c : Cache K V} (hnew : new o = .ok c) (cs : List (Call K V))
    (hok : Meets call LimitsOk c cs) : Always call WithinLimits c cs := by
  have hall : Always call Bounded c cs :=
    always_of_meets (fun _ _ h hok => h.call hok) (Bounded.new hnew) hok
  exact hall.mono fun _ h => h.within

/-- Small, Main and Ghost in use, and both limits lowered. -/
theorem limits_hold_queues :
    let o : Options ℕ ℕ :=
      { policy := .s3fifo, maxEntries := some 30, maxWeight := some 12, weightFn := fun v => .finite v }
    let c : Cache ℕ ℕ := initial o (some 30) 30 (some 12) (some 1000)
    Always call WithinLimits c [.event (.set 1 2 none none 1), .event (.set 2 3 none none 2),
      .event (.get 1 3), .event (.set 3 4 none none 4), .event (.set 4 1 none none 5),
      .event (.set 5 2 none none 6), .event (.touch 3 none 7), .event (.set 3 9 none none 8),
      .event (.setMany [(6, 1), (7, 2)] none none 9), .getOrSet 8 (.value 1) none none none 10 11,
      .event (.resize (some 3) (some 6)), .clear, .event (.set 1 6 none none 12)] := by
  intro o c
  have hnew : new o = .ok c := rfl
  refine limits_hold hnew _ ?_
  clear hnew
  subst o c
  decide +kernel

/-- A heavy entry stays in Small, and the cache beyond its limit. -/
theorem set_leaves_small_heavy :
    let c : Cache ℕ ℕ := initial { policy := .s3fifo, maxWeight := some 5 } none 1024 (some 5) (some 1000)
    new { policy := .s3fifo, maxWeight := some 5 } = .ok c ∧
      ¬Always call WithinLimits c [.event (.set 1 10 none (some (some 10)) 1)] := by
  refine ⟨rfl, fun h => ?_⟩
  have hweight := h.last.maxWeight 5 (by decide +kernel)
  revert hweight
  decide +kernel

end PerformanceHelpers.PowerCache
