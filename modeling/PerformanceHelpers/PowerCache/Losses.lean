import PerformanceHelpers.PowerCache.Ledger
import PerformanceHelpers.PowerCache.Sweeps

/- Every call of a cache, as turns of its ledger.

   The lists, the cursors and the window decide which node is taken, and are no part of
   the ledger: what a function does to them alone leaves the ledger as it was. So there
   is one lemma for each function, for any cache, whatever state its lists are in. -/
namespace PerformanceHelpers.PowerCache
open Function (update)

variable {K V : Type}

structure Guarded (sound : Prop) (c : Cache K V) : Prop where
  sketch : c.sketch ≠ none → c.policy = .lru
  keyed : sound → c.policy ≠ .s3fifo ∧ (ledger c).Keyed

variable [DecidableEq K]

/-- From `c` to `c'` there are only turns of the call `cl`. -/
def Runs (sound : Prop) (cl : Call K V) (c c' : Cache K V) : Prop :=
  Guarded sound c → Turns true sound cl (ledger c) (ledger c')

variable {sound : Prop} {cl : Call K V} {c c' c'' : Cache K V} {i n : ℕ} {k : K} {v : V}
  {w x now : ℚ}

theorem Turns.guarded (h : Turns true sound cl (ledger c) (ledger c')) (hguard : Guarded sound c) :
    Guarded sound c' := by
  have hall : ∀ l, Turns true sound cl (ledger c) l → l.config = c.toConfig ∧ (sound → l.Keyed) := by
    intro l hl
    induction hl with
    | refl => exact ⟨rfl, fun hs => (hguard.keyed hs).2⟩
    | tail _ hturn ih =>
      obtain ⟨hconfig, hkeyed⟩ := ih
      refine ⟨hturn.config.trans hconfig, fun hs => hturn.keyed hs ?_ (hkeyed hs)⟩
      rw [hconfig]
      exact (hguard.keyed hs).1
  obtain ⟨hconfig, hkeyed⟩ := hall _ h
  have hconfig' : c'.toConfig = c.toConfig := hconfig
  refine ⟨?_, fun hs => ⟨?_, hkeyed hs⟩⟩
  · rw [hconfig']
    exact hguard.sketch
  · rw [hconfig']
    exact (hguard.keyed hs).1

namespace Runs

theorem same (h : ledger c' = ledger c) : Runs sound cl c c' := by
  intro _
  rw [h]

theorem turn (h : Guarded sound c → Turn true sound cl (ledger c) (ledger c')) : Runs sound cl c c' :=
  fun hguard => .single (h hguard)

theorem trans (h : Runs sound cl c c') (h' : Runs sound cl c' c'') : Runs sound cl c c'' :=
  fun hguard => (h hguard).trans (h' ((h hguard).guarded hguard))

theorem after (h : Runs sound cl c c') (h' : ledger c'' = ledger c') : Runs sound cl c c'' :=
  h.trans (.same h')

/-- What a turn rests on may be used. -/
theorem of_guarded (h : Guarded sound c → Runs sound cl c c') : Runs sound cl c c' :=
  fun hguard => h hguard hguard

end Runs

/-! ## What leaves the ledger alone -/

theorem ledger_abortInflight (key : Option K) : ledger (abortInflight c key) = ledger c := by
  unfold abortInflight
  split <;> rfl

theorem ledger_remove (hpol : c.policy ≠ .s3fifo) : ledger (remove c i) = ledger c := by
  cases hp : c.policy with
  | s3fifo => exact absurd hp hpol
  | lru | slru | sieve =>
    simp only [remove, hp]
    rfl

omit [DecidableEq K] in
theorem ledger_takeNode : ledger (takeNode c).1 = ledger c := by
  cases hp : c.pool <;> simp only [takeNode, hp] <;> rfl

theorem ledger_append (hpol : c.policy ≠ .s3fifo) : ledger (append c i) = ledger c := by
  obtain ⟨links, main, candidate, probationEnd, hand, happend⟩ := append_list (i := i) hpol
  rw [happend]
  rfl

omit [DecidableEq K] in
theorem ledger_insertAtMainSpaceMrU : ledger (insertAtMainSpaceMrU c i) = ledger c := by
  obtain ⟨memo, tail, hframe⟩ := windowOldest_frame c
  have hold : ledger (windowOldest c).1 = ledger c := by
    rw [hframe]
    rfl
  unfold insertAtMainSpaceMrU
  generalize windowOldest c = old at hold
  obtain ⟨c', oldest⟩ := old
  cases oldest with
  | none | some start => exact hold

theorem ledger_promoteFromWindow (hpol : c.policy ≠ .s3fifo) :
    ledger (promoteFromWindow c i) = ledger c :=
  (ledger_insertAtMainSpaceMrU (c := remove c i) (i := i)).trans (ledger_remove hpol)

theorem ledger_protect (hpol : c.policy ≠ .s3fifo) : ledger (protect c i) = ledger c := by
  simp only [protect]
  split
  · rfl
  · exact ledger_remove hpol

theorem ledger_moveToTail (hpol : c.policy ≠ .s3fifo) : ledger (moveToTail c i) = ledger c := by
  have hpol' : (remove c i).policy ≠ .s3fifo := by
    rw [remove_toConfig]
    exact hpol
  cases hp : c.policy with
  | s3fifo => exact absurd hp hpol
  | slru =>
    rw [moveToTail_slru hp]
    exact ledger_protect hpol
  | sieve =>
    rw [moveToTail_sieve hp]
    rfl
  | lru =>
    simp only [moveToTail, hp]
    split
    · exact ledger_insertAtMainSpaceMrU.trans (ledger_remove hpol)
    · split
      · rfl
      · exact (ledger_append hpol').trans (ledger_remove hpol)

section
omit [DecidableEq K]

theorem ledger_settleCandidate : ledger (settleCandidate c) = ledger c := by
  unfold settleCandidate
  split <;> rfl

theorem ledger_nextVictim : ledger (nextVictim c).1 = ledger c := by
  unfold nextVictim
  split
  · rfl
  · unfold cheapestEvictionCandidate
    split <;> rfl

theorem ledger_countWeightError {weight : Option Weight} :
    ledger (countWeightError c v weight) = ledger c := by
  unfold countWeightError
  split <;> rfl

theorem ledger_countKey : ledger (countKey c k) = ledger c := by
  unfold countKey
  split <;> rfl

theorem ledger_countMiss {count : Bool} : ledger (countMiss c count) = ledger c := by
  cases count <;> rfl

end

theorem ledger_refreshStaleEntry : ledger (refreshStaleEntry c k) = ledger c := by
  unfold refreshStaleEntry
  split
  · rfl
  · split <;> rfl

omit [DecidableEq K] in
theorem ledger_find : (ledger c).find k = lookup c k := by
  cases hp : c.policy <;> simp only [Ledger.find, lookup, ledger, hp]

/-! ## Nodes that leave -/

/-- The queues whose indexes `_unlinkNode` takes the key from. -/
def unlinkedFrom (c : Cache K V) (i : ℕ) (q : Queue) : Bool :=
  decide (q = .main) || decide (c.policy = .s3fifo) && decide (c.queue i = q)

theorem ledger_unlinkNode (advance : Bool) : ledger (unlinkNode c i advance) =
    { (ledger c).unindex i (unlinkedFrom c i) with
      currentWeight := c.currentWeight - c.weight i } := by
  cases hp : c.policy <;> cases hq : c.queue i <;>
    simp [ledger, Ledger.unindex, unlinkedFrom, unlinkNode, remove, dropRefs, removeFromSmall,
      removeFromGhost, hp, hq]

theorem ledger_dropNode {advance : Bool} {reason : String} :
    ledger (dropNode (unlinkNode c i advance) i reason) =
      { (ledger c).drop i (unlinkedFrom c i) with
        evictions := c.counters.evictions + 1
        log := c.log ++ [.onEvict (c.key i) (c.value i) reason] } := by
  have hdrop : ∀ c' : Cache K V, ledger (dropNode c' i reason) = { ledger c' with
      fields := (ledger c').fields.free i
      evictions := (ledger c').evictions + 1
      log := (ledger c').log ++
        [.onEvict ((ledger c').fields.key i) ((ledger c').fields.value i) reason] } := fun _ => rfl
  rw [hdrop, ledger_unlinkNode]
  rfl

theorem ledger_removeExpiredNode : ledger (removeExpiredNode c i) =
    { (ledger c).drop i (unlinkedFrom c i) with
      log := c.log ++ [.onExpire (c.key i) (c.value i)] } := by
  have hunlink := ledger_unlinkNode (c := c) (i := i) false
  have hremove : ledger (removeExpiredNode c i) = { ledger (unlinkNode c i false) with
      fields := (ledger (unlinkNode c i false)).fields.free i
      log := (ledger (unlinkNode c i false)).log ++ [.onExpire (c.key i) (c.value i)] } := rfl
  rw [hremove, hunlink]
  rfl

section
omit [DecidableEq K]

theorem over_of_overLimit {size : ℚ} (h : overLimit c size = true) (hsize : (ledger c).size = size) :
    (ledger c).Over := by
  rw [overLimit, Bool.or_eq_true] at h
  refine h.imp (fun h => ?_) fun h => ?_
  · obtain ⟨m, hm, hlt⟩ := (Option.any_eq_true _ _).mp h
    refine ⟨m, hm, ?_⟩
    rw [hsize]
    exact of_decide_eq_true hlt
  · obtain ⟨m, hm, hlt⟩ := (Option.any_eq_true _ _).mp h
    exact ⟨m, hm, of_decide_eq_true hlt⟩

theorem size_list (hpol : c.policy ≠ .s3fifo) : (ledger c).size = c.map.size := if_neg hpol

theorem size_s3fifo (hpol : c.policy = .s3fifo) : (ledger c).size = c.map.size + c.smallSize :=
  if_pos hpol

end

namespace Runs

theorem lost {advance : Bool} (hlimit : (ledger c).Over ∨ (ledger c).SmallOver) :
    Runs sound cl c (dropNode (unlinkNode c i advance) i "evicted") := by
  refine .turn fun hguard => ?_
  rw [ledger_dropNode]
  exact .loses _ (fun _ => rfl) (hlimit.imp_right fun h => ⟨rfl, h⟩)
    fun hs k hk => (hguard.keyed hs).2 i k hk

theorem lostByCall {advance : Bool} (hlimit : (ledger c).Over) :
    Runs sound cl c (dropNode (unlinkNode (abortInflight c (c.key i)) i advance) i "evicted") := by
  have habort := ledger_abortInflight (c := c) (c.key i)
  exact (same habort).trans (lost (by rw [habort]; exact Or.inl hlimit))

theorem evictNode (hlimit : (ledger c).Over) : Runs sound cl c (evictNode c i) := lostByCall hlimit

/-! ## The loops -/

variable {turns : ℕ}

theorem evictLoop (hpol : c.policy ≠ .s3fifo) :
    Runs sound cl c (evictLoop turns c) := by
  induction turns generalizing c with
  | zero => exact same rfl
  | succ turns ih =>
    rw [PowerCache.evictLoop]
    split
    · next hover =>
      have hledger := ledger_nextVictim (c := c)
      cases hnext : nextVictim c with
      | mk c' found =>
        rw [hnext] at hledger
        have hconfig : c'.toConfig = c.toConfig := congrArg Ledger.config hledger
        cases found with
        | none => exact same hledger
        | some i =>
          have hlimit : (ledger c').Over := by
            rw [show ledger c' = ledger c from hledger]
            exact over_of_overLimit hover (size_list hpol)
          have hpol' : (PowerCache.evictNode c' i).policy ≠ .s3fifo := by
            rw [evictNode_toConfig, hconfig]
            exact hpol
          exact (same hledger).trans ((evictNode hlimit).trans (ih hpol'))
    · exact same rfl

theorem sieveEvict (hpol : c.policy ≠ .s3fifo) :
    Runs sound cl c (sieveEvict turns c) := by
  induction turns generalizing c with
  | zero => exact same rfl
  | succ turns ih =>
    rw [PowerCache.sieveEvict]
    split
    · next hover =>
      have hlimit := over_of_overLimit hover (size_list hpol)
      split
      · exact same rfl
      · next i hi =>
        have hmoved : ledger { c with sieveHand := c.links.next i <|> c.main.tail } = ledger c := rfl
        have hone : Runs sound cl c (sieveOne c i) ∧ (sieveOne c i).policy = c.policy := by
          simp only [sieveOne]
          split
          · exact ⟨same rfl, rfl⟩
          · refine ⟨(same hmoved).trans (lostByCall ?_), ?_⟩
            · rw [hmoved]
              exact hlimit
            · show (unlinkNode _ i false).policy = c.policy
              rw [unlinkNode_toConfig, abortInflight_toConfig]
        exact hone.1.trans (ih (by rw [hone.2]; exact hpol))
    · exact same rfl

theorem demoteOne (hpol : c.policy = .s3fifo) (hsmall : (ledger c).SmallOver) :
    Runs sound cl c (demoteOne c i) := by
  refine .turn fun hguard => ?_
  unfold PowerCache.demoteOne
  simp only []
  split
  · have hdemote : ledger (appendGhost (removeFromSmall
        { c with currentWeight := c.currentWeight - c.weight i } i) i) =
        { (ledger c).demote i (fun q => decide (q = .small)) with
          evictions := (ledger c).evictions + 0, log := (ledger c).log ++ [] } := by
      rw [List.append_nil]
      rfl
    rw [hdemote]
    exact .demotes _ 0 [] rfl hpol (Or.inr hsmall)
  · have hlose : ledger (dropNode (abortInflight (removeFromSmall
        { c with currentWeight := c.currentWeight - c.weight i } i) (c.key i)) i "evicted") =
        { (ledger c).drop i (fun q => decide (q = .small)) with
          evictions := (ledger c).evictions + 1
          log := (ledger c).log ++
            [.onEvict ((ledger c).fields.key i) ((ledger c).fields.value i) "evicted"] } := by
      have hdrop : ∀ c' : Cache K V, ledger (PowerCache.dropNode c' i "evicted") = { ledger c' with
          fields := (ledger c').fields.free i
          evictions := (ledger c').evictions + 1
          log := (ledger c').log ++
            [.onEvict ((ledger c').fields.key i) ((ledger c').fields.value i) "evicted"] } :=
        fun _ => rfl
      rw [hdrop, ledger_abortInflight]
      rfl
    rw [hlose]
    exact .loses _ (absurd hpol) (Or.inr ⟨rfl, hsmall⟩) fun hs => absurd hpol (hguard.keyed hs).1

theorem demoteSmall (hpol : c.policy = .s3fifo) :
    Runs sound cl c (demoteSmall turns c) := by
  induction turns generalizing c with
  | zero => exact same rfl
  | succ turns ih =>
    rw [PowerCache.demoteSmall]
    split
    · next hsmall =>
      cases c.small.head with
      | none => exact same rfl
      | some i =>
        refine (demoteOne hpol ⟨hpol, hsmall⟩).trans (ih ?_)
        rw [demoteOne_toConfig]
        exact hpol
    · exact same rfl

theorem demoteSmall_toConfig : (PowerCache.demoteSmall turns c).toConfig = c.toConfig := by
  induction turns generalizing c with
  | zero => rfl
  | succ turns ih =>
    rw [PowerCache.demoteSmall]
    split
    · cases c.small.head with
      | none => rfl
      | some i => exact ih.trans demoteOne_toConfig
    · rfl

theorem evictMain (hpol : c.policy = .s3fifo) :
    Runs sound cl c (evictMain turns c) := by
  induction turns generalizing c with
  | zero => exact same rfl
  | succ turns ih =>
    rw [PowerCache.evictMain]
    split
    · next hover =>
      have hlimit := over_of_overLimit hover (size_s3fifo hpol)
      cases victim c with
      | none => exact same rfl
      | some i =>
        have hone : Runs sound cl c (evictOne c i) := by
          unfold evictOne
          split
          · refine .turn fun hguard => ?_
            have hdemote : ledger (appendGhost (unlinkNode c i true) i) =
                { (ledger c).demote i (unlinkedFrom c i) with
                  evictions := (ledger c).evictions + 0, log := (ledger c).log ++ [] } := by
              have happend : ∀ c' : Cache K V, ledger (appendGhost c' i) = { ledger c' with
                  ghostMap := setKey (ledger c').ghostMap ((ledger c').fields.key i) i
                  fields := (ledger c').fields.keyOnly i } := fun _ => rfl
              rw [happend, ledger_unlinkNode, List.append_nil]
              rfl
            rw [hdemote]
            exact .demotes _ 0 [] rfl hpol (Or.inl hlimit)
          · exact evictNode hlimit
        refine hone.trans (ih ?_)
        rw [evictOne_toConfig]
        exact hpol
    · exact same rfl

theorem evictIfNeeded : Runs sound cl c (evictIfNeeded c) := by
  cases hp : c.policy with
  | s3fifo =>
    have hsmall : Runs sound cl c (PowerCache.demoteSmall (c.smallSize - c.smallMaxSize).toNat c) :=
      demoteSmall hp
    have hpol : (PowerCache.demoteSmall (c.smallSize - c.smallMaxSize).toNat c).policy = .s3fifo := by
      rw [demoteSmall_toConfig]
      exact hp
    simp only [PowerCache.evictIfNeeded, hp, s3fifoEvict]
    exact hsmall.trans ((evictMain hpol).after ledger_settleCandidate)
  | sieve =>
    simp only [PowerCache.evictIfNeeded, hp]
    exact sieveEvict (by simp [hp])
  | lru | slru =>
    simp only [PowerCache.evictIfNeeded, hp]
    exact (evictLoop (by simp [hp])).after ledger_settleCandidate

end Runs

/-! ## Nodes that are used or stored -/

theorem ledger_insertNode : ledger (insertNode c k v w x) =
    (ledger c).store (takeNode c).2 k v w x := by
  have halloc : ledger (allocNode c k v w x).1 =
      { ledger c with fields := c.toFields.put (takeNode c).2 k v w x } := by
    have hput : ledger (allocNode c k v w x).1 = { ledger (takeNode c).1 with
        fields := (takeNode c).1.toFields.put (takeNode c).2 k v w x } := rfl
    rw [hput, ledger_takeNode, takeNode_toFields]
  have hpol : (allocNode c k v w x).1.policy = c.policy := allocNode_policy
  by_cases hs3 : c.policy = .s3fifo
  · rw [insertNode_s3fifo hs3]
    have happend : ∀ (c' : Cache K V) i, ledger { appendSmall c' i with
        currentWeight := (appendSmall c' i).currentWeight + w } = { ledger c' with
          smallMap := setKey (ledger c').smallMap ((ledger c').fields.key i) i
          smallSize := (ledger c').smallSize + 1
          currentWeight := (ledger c').currentWeight + w } := fun _ _ => rfl
    simp only [happend, halloc, Ledger.store, show (ledger c).config.policy = .s3fifo from hs3, if_true]
    simp [Fields.put, setKey, ledger]
  · rw [insertNode_list hs3]
    obtain ⟨links, main, candidate, probationEnd, hand, happend⟩ :=
      append_list (c := { (allocNode c k v w x).1 with
        map := (allocNode c k v w x).1.map.set k (takeNode c).2 }) (i := (takeNode c).2)
        (by rw [hpol]; exact hs3)
    simp only [happend]
    have hstored : ∀ c' : Cache K V, ledger { c' with
        links, main, evictionCandidate := candidate, probationEnd, sieveHand := hand
        map := c'.map.set k (takeNode c).2, currentWeight := c'.currentWeight + w } = { ledger c' with
          map := (ledger c').map.set k (takeNode c).2
          currentWeight := (ledger c').currentWeight + w } := fun _ => rfl
    refine (hstored (allocNode c k v w x).1).trans ?_
    simp only [halloc, Ledger.store, if_neg (show (ledger c).config.policy ≠ .s3fifo from hs3)]
    rfl

namespace Runs

theorem insertNode (hgiven : Gives cl k v) (hfresh : c.map.get k = none) :
    Runs sound cl c (insertNode c k v w x) := by
  refine .turn fun _ => ?_
  rw [ledger_insertNode]
  exact .stores _ w x hgiven hfresh

theorem moveToTail (hfound : lookup c k = some i) : Runs sound cl c (moveToTail c i) := by
  by_cases hpol : c.policy = .s3fifo
  · have hfind : (ledger c).find k = some i := ledger_find.trans hfound
    have hpromote : ∀ (c' : Cache K V) (qs : Queue → Bool), qs .main = false →
        ledger (appendMain { c' with
          queue := update c'.queue i .main, links := clearLinks c'.links i } i) =
          (ledger c).promote i qs → Runs sound cl c (promote c' i) := by
      intro c' qs hqs hledger
      refine trans (.turn fun _ => ?_) evictIfNeeded
      rw [hledger]
      exact .promotes qs hqs hpol hfind
    simp only [PowerCache.moveToTail, hpol]
    split
    · exact same rfl
    · exact hpromote (removeFromSmall c i) (fun q => decide (q = .small)) rfl rfl
    · exact hpromote (removeFromGhost c i) (fun q => decide (q = .ghost)) rfl rfl
  · exact same (ledger_moveToTail hpol)

theorem updateExisting (hgiven : Gives cl k v) (hfound : lookup c k = some i) :
    Runs sound cl c (updateExisting c i v w x) := by
  have hwrite : Runs sound cl c { c with
      currentWeight := c.currentWeight - c.weight i + w
      value := update c.value i (some v)
      weight := update c.weight i w
      expiresAt := update c.expiresAt i x } :=
    .turn fun _ => .writes w x hgiven (ledger_find.trans hfound)
  exact hwrite.trans (moveToTail hfound)

end Runs

/-! ## The window -/

theorem size_insertNode (hpol : c.policy ≠ .s3fifo) (hfresh : c.map.get k = none) :
    (insertNode c k v w x).map.size = c.map.size + 1 := by
  have hmap : (insertNode c k v w x).map = c.map.set k (takeNode c).2 := by
    have hledger := congrArg Ledger.map (ledger_insertNode (c := c) (k := k) (v := v) (w := w) (x := x))
    simp only [Ledger.store, if_neg (show (ledger c).config.policy ≠ .s3fifo from hpol)] at hledger
    exact hledger
  rw [hmap]
  simp [KeyMap.set, hfresh]

omit [DecidableEq K] in
theorem over_of_atCapacity (hpol : c.policy ≠ .s3fifo) (hsize : c.map.size = n + 1)
    (hfull : atCapacity c n = true) : (ledger c).Over := by
  rw [atCapacity, Bool.or_eq_true] at hfull
  refine hfull.imp (fun h => ?_) fun h => ?_
  · obtain ⟨m, hm, hle⟩ := (Option.any_eq_true _ _).mp h
    refine ⟨m, hm, ?_⟩
    rw [size_list hpol, hsize]
    push_cast
    have hle' : m ≤ (n : ℚ) := of_decide_eq_true hle
    linarith
  · obtain ⟨m, hm, hlt⟩ := (Option.any_eq_true _ _).mp h
    exact ⟨m, hm, of_decide_eq_true hlt⟩

namespace Runs

theorem arbitrateWindow {sketch : List K → Option K → ℕ} (hpol : c.policy ≠ .s3fifo)
    (hsize : c.map.size = n + 1) : Runs sound cl c (arbitrateWindow c sketch n) := by
  rcases arbitrateWindow_cases c sketch n with heq | ⟨c', ⟨memo, tail, hframe⟩, hcases⟩
  · rw [heq]
    exact same rfl
  · have hledger : ledger c' = ledger c := by
      rw [hframe]
      rfl
    have hpol' : c'.policy ≠ .s3fifo := by
      rw [hframe]
      exact hpol
    rcases hcases with heq | ⟨i, heq⟩ | ⟨i, v, -, hfull, -, -, heq⟩
    · rw [heq]
      exact same hledger
    · rw [heq]
      exact same ((ledger_promoteFromWindow hpol').trans hledger)
    · have hlimit : (ledger c').Over := by
        rw [hledger]
        exact over_of_atCapacity hpol hsize hfull
      rw [heq]
      split
      · have hevict : Runs sound cl c (evictByWindow c' v) :=
          (same hledger).trans (lost (Or.inl hlimit))
        refine hevict.after (ledger_promoteFromWindow ?_)
        show (unlinkNode c' v true).policy ≠ .s3fifo
        rw [unlinkNode_toConfig]
        exact hpol'
      · have hcounted : ledger { c' with counters := { c'.counters with
            rejectedAdmission := c'.counters.rejectedAdmission + 1 } } = ledger c' := rfl
        refine (same (hcounted.trans hledger)).trans (lost ?_)
        rw [hcounted]
        exact Or.inl hlimit

theorem insertNew (hgiven : Gives cl k v) (hfresh : c.map.get k = none) :
    Runs sound cl c (insertNew c k v w x c.map.size).1 := by
  have hinsert : Runs sound cl c (PowerCache.insertNode c k v w x) := insertNode hgiven hfresh
  refine .of_guarded fun hguard => ?_
  cases hsketch : c.sketch with
  | none =>
    rw [insertNew_plain hsketch]
    exact hinsert
  | some sketch =>
    have hlru : c.policy = .lru := hguard.sketch (by simp [hsketch])
    have hpol : c.policy ≠ .s3fifo := by simp [hlru]
    simp only [PowerCache.insertNew, hsketch]
    split
    · have henter : ledger (enterWindow c k v w x) = ledger (PowerCache.insertNode c k v w x) := rfl
      have hpol' : (enterWindow c k v w x).policy ≠ .s3fifo := by
        show (PowerCache.insertNode c k v w x).policy ≠ .s3fifo
        rw [insertNode_frame.1]
        exact hpol
      simp only [insertIntoWindow_eq hlru]
      exact (hinsert.after henter).trans (arbitrateWindow hpol' (size_insertNode hpol hfresh))
    · split
      · exact same rfl
      · exact hinsert

theorem putValue (hgiven : Gives cl k v) : Runs sound cl c (putValue c k v w x).1 := by
  unfold PowerCache.putValue
  cases hfound : lookup c k with
  | some i => exact updateExisting hgiven hfound
  | none =>
    refine insertNew hgiven ?_
    cases hp : c.policy with
    | lru | slru | sieve => simpa only [lookup, hp] using hfound
    | s3fifo =>
      simp only [lookup, hp, Option.orElse_eq_orElse, Option.orElse_eq_or, Option.or_eq_none_iff] at hfound
      exact hfound.1

theorem reject (hgiven : Gives cl k v) : Runs sound cl c (reject c k v) :=
  .turn fun _ => .refuses hgiven

variable {factory : Factory V} {weight : Option Weight} {ttl : Option Ttl} {ign : Bool}

theorem store (hgiven : Gives cl k v) :
    Runs sound cl c (store c k v x weight).1 := by
  have hcount : Runs sound cl c (PowerCache.countWeightError c v weight) := same ledger_countWeightError
  rw [store_eq]
  split
  · exact hcount.trans (reject hgiven)
  · simp only []
    have hput := (hcount.trans (putValue (w := computeWeight c.weightFn v weight) (x := x) hgiven)).after
      (ledger_countKey (k := k))
    split
    · exact hput.trans evictIfNeeded
    · exact hput

theorem set (hgiven : Gives cl k v) :
    Runs sound cl c (settleCall c (set c k v ttl weight now) (Outcome.flag (K := K) (V := V))).1 := by
  unfold PowerCache.set
  cases expiresAtOf (ttl.getD c.defaultTTL) now with
  | error e => exact same rfl
  | ok x => exact store hgiven

theorem setManyOne {p : K × V} (hgiven : Gives cl p.1 p.2) :
    Runs sound cl c (setManyOne x weight c p) := by
  have hcount : Runs sound cl c (PowerCache.countWeightError c p.2 weight) :=
    same ledger_countWeightError
  refine hcount.trans ?_
  simp only [PowerCache.setManyOne]
  generalize PowerCache.countWeightError c p.2 weight = c'
  split
  · exact reject hgiven
  · cases hfound : c'.map.get p.1 with
    | some i =>
      have hlookup : lookup c' p.1 = some i := by
        cases hp : c'.policy <;> simp [lookup, hp, hfound]
      exact (updateExisting hgiven hlookup).after ledger_countKey
    | none =>
      have hinsert : Runs sound cl c' (PowerCache.insertNew c' p.1 p.2
          (computeWeight c.weightFn p.2 weight) x c'.map.size).1 := insertNew hgiven hfound
      simp only []
      generalize PowerCache.insertNew c' p.1 p.2 (computeWeight c.weightFn p.2 weight) x
        c'.map.size = res at hinsert ⊢
      obtain ⟨c'', stored⟩ := res
      cases stored with
      | true => exact hinsert.after ledger_countKey
      | false => exact hinsert

theorem setManyLoop {ps : List (K × V)} (hgiven : ∀ p ∈ ps, Gives cl p.1 p.2) :
    Runs sound cl c (ps.foldl (PowerCache.setManyOne x weight) c) := by
  induction ps generalizing c with
  | nil => exact same rfl
  | cons p ps ih =>
    rw [List.foldl_cons]
    exact (setManyOne (hgiven p List.mem_cons_self)).trans
      (ih fun q hq => hgiven q (List.mem_cons_of_mem p hq))

theorem setMany {entries : List (K × V)}
    (hgiven : ∀ p ∈ entries, Gives cl p.1 p.2) :
    Runs sound cl c (step c (.setMany entries ttl weight now)).1 := by
  simp only [step, PowerCache.setMany]
  cases expiresAtOf (ttl.getD .never) now with
  | error e => exact same rfl
  | ok x => exact (setManyLoop hgiven).trans evictIfNeeded

/-! ## Reads -/

theorem removeExpiredNode (hreads : Reads cl now) (hexpired : expiredAt c i now = true) :
    Runs sound cl c (removeExpiredNode c i) := by
  rw [expiredAt, Bool.and_eq_true] at hexpired
  refine .turn fun _ => ?_
  rw [ledger_removeExpiredNode]
  exact .expires _ (fun _ => rfl) hreads ⟨of_decide_eq_true hexpired.1, of_decide_eq_true hexpired.2⟩

theorem fetchValidNode {count : Bool} (hreads : Reads cl now) :
    Runs sound cl c (fetchValidNode c k ign count now).1 := by
  unfold PowerCache.fetchValidNode
  split
  · exact same ledger_countMiss
  · split
    · exact same ledger_countMiss
    · split
      · next h => exact (removeExpiredNode hreads h.2.2).after ledger_countMiss
      · exact same rfl

theorem fetched {count : Bool} (h : PowerCache.fetchValidNode c k ign count now = (c', some i)) :
    lookup c k = some i := by
  unfold PowerCache.fetchValidNode at h
  cases hl : lookup c k with
  | none => simp [hl] at h
  | some j =>
    simp only [hl] at h
    split at h
    · cases h
    · split at h
      · cases h
      · cases h
        rfl

theorem hit (hfound : lookup c k = some i) : Runs sound cl c (countHit (PowerCache.moveToTail c i)) :=
  (moveToTail hfound).after rfl

theorem get (hreads : Reads cl now) : Runs sound cl c (get c k now).1 := by
  have hfetch : Runs sound cl c (PowerCache.fetchValidNode c k false true now).1 := fetchValidNode hreads
  unfold PowerCache.get
  cases hnode : PowerCache.fetchValidNode c k false true now with
  | mk c' found =>
    rw [hnode] at hfetch
    cases found with
    | none => exact hfetch
    | some i =>
      obtain rfl := fetchValidNode_found hnode
      exact (hit (fetched hnode)).after ledger_countKey

theorem getManyOne {acc : Cache K V × List (K × Option V)} {q : K × ℚ}
    (hreads : Reads cl q.2) : Runs sound cl acc.1 (getManyOne ign acc q).1 := by
  have hfetch : Runs sound cl acc.1 (PowerCache.fetchValidNode acc.1 q.1 ign true q.2).1 :=
    fetchValidNode hreads
  unfold PowerCache.getManyOne
  cases hnode : PowerCache.fetchValidNode acc.1 q.1 ign true q.2 with
  | mk c' found =>
    rw [hnode] at hfetch
    cases found with
    | none => exact hfetch
    | some i =>
      obtain rfl := fetchValidNode_found hnode
      exact hit (fetched hnode)

theorem getManyLoop {keys : List (K × ℚ)} (acc : Cache K V × List (K × Option V))
    (hreads : ∀ q ∈ keys, Reads cl q.2) :
    Runs sound cl acc.1 (keys.foldl (PowerCache.getManyOne ign) acc).1 := by
  induction keys generalizing acc with
  | nil => exact same rfl
  | cons q keys ih =>
    rw [List.foldl_cons]
    exact (getManyOne (hreads q List.mem_cons_self)).trans
      (ih _ fun p hp => hreads p (List.mem_cons_of_mem q hp))

theorem touch (hcl : cl = .event (.touch k ttl now)) :
    Runs sound cl c (step c (.touch k ttl now)).1 := by
  have hreads : Reads cl now := by
    rw [hcl]
    rfl
  have hfetch : Runs sound cl c (PowerCache.fetchValidNode c k false false now).1 := fetchValidNode hreads
  simp only [step, PowerCache.touch]
  cases hnode : PowerCache.fetchValidNode c k false false now with
  | mk c' found =>
    rw [hnode] at hfetch
    cases found with
    | none => exact hfetch
    | some i =>
      obtain rfl := fetchValidNode_found hnode
      have hlookup := fetched hnode
      cases ttl with
      | none => exact moveToTail hlookup
      | some ttl =>
        simp only []
        cases expiresAtOf ttl now with
        | error e => exact same rfl
        | ok x =>
          have htouch : Runs sound cl c' { c' with expiresAt := update c'.expiresAt i x } :=
            .turn fun _ => .touches x ⟨some ttl, now, hcl⟩ (ledger_find.trans hlookup)
          exact htouch.trans (moveToTail hlookup)

theorem fetch : Runs sound cl c (if hasInflight c (some k) then c else addInflight (countMiss c true) k) := by
  split
  · exact same rfl
  · exact same rfl

theorem serveStale (hfound : lookup c k = some i) : Runs sound cl c
    (refreshStaleEntry { countHit (PowerCache.moveToTail c i) with counters := {
      (countHit (PowerCache.moveToTail c i)).counters with
      staleServes := (countHit (PowerCache.moveToTail c i)).counters.staleServes + 1 } } k) :=
  (hit hfound).after ledger_refreshStaleEntry

theorem getOrSetAsync {swr : Option Bool} (hreads : Reads cl now) :
    Runs sound cl c (getOrSetAsync c k swr now) := by
  simp only [PowerCache.getOrSetAsync]
  cases hget : c.map.get k with
  | none => exact fetch
  | some i =>
    have hlookup : lookup c k = some i := by
      cases hp : c.policy <;> simp [lookup, hp, hget]
    simp only []
    split
    · next hexpired =>
      split
      · exact serveStale hlookup
      · exact (removeExpiredNode hreads hexpired).trans fetch
    · exact hit hlookup

theorem produce
    (hgiven : ∀ v, factory = .value v ∨ factory = .returns v → Gives cl k v) :
    Runs sound cl c (produce c k factory ttl weight now).1 := by
  have hset : ∀ v, Gives cl k v →
      Runs sound cl c (PowerCache.produce c k (.value v) ttl weight now).1 := by
    intro v hv
    have hsettled : Runs sound cl c
      (settleCall c (PowerCache.set c k v ttl weight now) (Outcome.flag (K := K) (V := V))).1 := set hv
    simp only [PowerCache.produce]
    cases hres : PowerCache.set c k v ttl weight now with
    | error e => exact same rfl
    | ok r =>
      rw [hres] at hsettled
      exact hsettled
  cases factory with
  | value v => exact hset v (hgiven v (Or.inl rfl))
  | returns v => exact hset v (hgiven v (Or.inr rfl))
  | promises | throws error => exact same rfl

theorem serveFound {setNow : ℚ}
    (hreads : Reads cl now) (hgiven : ∀ v, factory = .value v ∨ factory = .returns v → Gives cl k v)
    (hlookup : lookup c k = some i) :
    Runs sound cl c (serveFound c k factory ttl weight now setNow i).1 := by
  unfold PowerCache.serveFound
  split
  · next hexpired =>
    split
    · exact serveStale hlookup
    · exact ((removeExpiredNode hreads hexpired).after ledger_countMiss).trans (produce hgiven)
  · exact hit hlookup

theorem getOrSet {swr : Option Bool}
    {setNow : ℚ} (hreads : Reads cl now)
    (hgiven : ∀ v, factory = .value v ∨ factory = .returns v → Gives cl k v) :
    Runs sound cl c (getOrSet c k factory ttl weight swr now setNow).1 := by
  have hmiss : ∀ c', Runs sound cl c c' →
      Runs sound cl c (PowerCache.produce (PowerCache.countMiss c' true) k factory ttl weight setNow).1 :=
    fun c' h => (h.after ledger_countMiss).trans (produce hgiven)
  rw [getOrSet_eq]
  unfold findNode
  cases swr.getD c.allowStale with
  | true =>
    cases hl : (lookup c k).filter fun i =>
        !(decide (c.policy = .s3fifo) && (c.map.get k).isNone && c.queue i == .ghost) with
    | none => simpa only [if_true] using hmiss c (same rfl)
    | some i =>
      simp only [if_true]
      exact serveFound hreads hgiven (Option.filter_eq_some_iff.mp hl).1
  | false =>
    have hfetch : Runs sound cl c (PowerCache.fetchValidNode c k false false now).1 := fetchValidNode hreads
    simp only [Bool.false_eq_true, if_false]
    cases hnode : PowerCache.fetchValidNode c k false false now with
    | mk c' found =>
      rw [hnode] at hfetch
      cases found with
      | none => exact hmiss c' hfetch
      | some i =>
        obtain rfl := fetchValidNode_found hnode
        exact serveFound hreads hgiven (fetched hnode)

/-! ## Removals -/

theorem taken {advance : Bool} {reason : String} (hreason : reason ≠ "deleted")
    (hasked : ∀ l, Asks cl l i reason) : Runs sound cl c (dropNode (unlinkNode c i advance) i reason) := by
  refine .turn fun _ => ?_
  have htakes : Turn true sound cl (ledger c) _ :=
    .takes (unlinkedFrom c i) (fun _ => rfl) (hasked (ledger c))
  rw [if_neg hreason] at htakes
  rw [ledger_dropNode]
  exact htakes

theorem takenByCall {advance : Bool} {reason : String} (hreason : reason ≠ "deleted")
    (hasked : ∀ l, Asks cl l i reason) :
    Runs sound cl c (dropNode (unlinkNode (abortInflight c (c.key i)) i advance) i reason) :=
  (same (ledger_abortInflight (c.key i))).trans (taken hreason hasked)

theorem delete (hcl : cl = .event (.delete k)) : Runs sound cl c (delete c k).1 := by
  have habort : Runs sound cl c (abortInflight c (some k)) := same (ledger_abortInflight (some k))
  unfold PowerCache.delete
  generalize abortInflight c (some k) = c' at habort
  refine habort.trans ?_
  cases hlookup : lookup c' k with
  | none => exact same (by simp only [hlookup])
  | some i =>
    have hfree : ledger (freeNode { unlinkNode c' i false with
        log := (unlinkNode c' i false).log ++ [.onEvict (c'.key i) (c'.value i) "deleted"] } i) =
        { (ledger c').drop i (unlinkedFrom c' i) with
          evictions := (ledger c').evictions + if "deleted" = "deleted" then 0 else 1
          log := c'.log ++ [.onEvict (c'.key i) (c'.value i) "deleted"] } := by
      have hunlink := ledger_unlinkNode (c := c') (i := i) false
      have hfreed : ledger (freeNode { unlinkNode c' i false with
          log := (unlinkNode c' i false).log ++ [.onEvict (c'.key i) (c'.value i) "deleted"] } i) =
          { ledger (unlinkNode c' i false) with
            fields := (ledger (unlinkNode c' i false)).fields.free i
            log := (ledger (unlinkNode c' i false)).log ++
              [.onEvict (c'.key i) (c'.value i) "deleted"] } := rfl
      rw [hfreed, hunlink, if_pos rfl]
      rfl
    simp only [hlookup]
    refine .turn fun _ => ?_
    rw [hfree]
    refine .takes _ (fun _ => rfl) ?_
    rw [hcl]
    exact ⟨ledger_find.trans hlookup, rfl⟩

theorem evictCount (count : ℤ) (hcl : cl = .event (.evict count)) :
    Runs sound cl c (evictCount n c).1 := by
  induction n generalizing c with
  | zero => exact same rfl
  | succ n ih =>
    rw [PowerCache.evictCount]
    cases victim c with
    | none => exact same rfl
    | some i =>
      have hasked : ∀ l, Asks cl l i "evicted" := by
        intro l
        rw [hcl]
        rfl
      exact (takenByCall (by decide) hasked).trans ih

theorem evict {count : ℤ} (hcl : cl = .event (.evict count)) :
    Runs sound cl c (step c (.evict count)).1 := by
  simp only [step, PowerCache.evict]
  split
  · exact same rfl
  · exact (evictCount count hcl).after ledger_settleCandidate

theorem invalidateLoop {predicate : Option K → Option V → Bool} {doomed : List ℕ} {m : ℕ}
    (hcl : cl = .event (.invalidate predicate)) :
    Runs sound cl c (doomed.foldl invalidateOne (c, m)).1 := by
  induction doomed generalizing c m with
  | nil => exact same rfl
  | cons i doomed ih =>
    rw [List.foldl_cons]
    simp only [invalidateOne]
    split
    · have hasked : ∀ l, Asks cl l i "invalidated" := by
        intro l
        rw [hcl]
        rfl
      exact (takenByCall (by decide) hasked).trans ih
    · exact ih

theorem invalidate {predicate : Option K → Option V → Bool}
    (hcl : cl = .event (.invalidate predicate)) : Runs sound cl c (invalidate c predicate).1 := by
  have hloop : Runs sound cl c ((doomedNodes c predicate).foldl invalidateOne (c, 0)).1 :=
    invalidateLoop hcl
  refine hloop.after ?_
  unfold PowerCache.invalidate realignCandidate
  simp only []
  split <;> rfl

theorem cleanupLoop {maxScan : Option ℚ} {turns scanned : ℕ} {node : Option ℕ} (hreads : Reads cl now) :
    Runs sound cl c (cleanupLoop now maxScan turns scanned node c).1 := by
  induction turns generalizing scanned node c with
  | zero => exact same rfl
  | succ turns ih =>
    cases node with
    | none => exact same rfl
    | some i =>
      rw [PowerCache.cleanupLoop]
      split
      · split
        · next hexpired => exact (removeExpiredNode hreads hexpired).trans ih
        · exact ih
      · exact same rfl

theorem cleanupExpiredUpTo {maxScan : Option ℚ} (hreads : Reads cl now) :
    Runs sound cl c (cleanupExpiredUpTo c maxScan now).1 := by
  have hloop : Runs sound cl c (PowerCache.cleanupLoop now maxScan (c.nextNode + 1) 0
      (if c.cleanupCursorValid then c.cleanupCursor <|> c.main.head else c.main.head) c).1 :=
    cleanupLoop hreads
  exact hloop.after rfl

theorem event {ev : Event K V} :
    Runs sound (.event ev) (limited c ev) (step c ev).1 := by
  cases ev with
  | set k v ttl weight now => exact set ⟨rfl, rfl⟩
  | setMany entries ttl weight now => exact setMany fun _ hp => hp
  | get k now => exact get rfl
  | peek k now | has k ign now => exact fetchValidNode rfl
  | getMany keys ign =>
    have hreads : ∀ q ∈ keys, Reads (.event (.getMany keys ign) : Call K V) q.2 := fun q hq => ⟨q.1, hq⟩
    exact getManyLoop (c, []) hreads
  | touch k ttl now => exact touch rfl
  | delete k => exact delete rfl
  | evict count => exact evict rfl
  | invalidate predicate => exact invalidate rfl
  | getOrSetAsync k swr now => exact getOrSetAsync rfl
  | finishFetch k abort =>
    refine same ?_
    cases abort with
    | true => exact ledger_abortInflight (some k)
    | false => rfl
  | resize n w => exact (evictIfNeeded (c := limited c (.resize n w))).after rfl
  | cleanupExpiredUpTo maxScan now => exact cleanupExpiredUpTo rfl
  | entries order => exact same rfl

end Runs

/-! ## Calls and runs -/

omit [DecidableEq K] in
theorem foldl_freeNode_key {xs : List ℕ} (hkeys : ∀ i, c.key i ≠ none → i ∈ xs) :
    ∀ i, (xs.foldl freeNode c).key i = none := by
  induction xs generalizing c with
  | nil =>
    intro i
    by_contra hi
    exact absurd (hkeys i hi) List.not_mem_nil
  | cons x xs ih =>
    rw [List.foldl_cons]
    refine ih fun i hi => ?_
    have hfree : (freeNode c x).key = update c.key x none := rfl
    rw [hfree] at hi
    have hne : i ≠ x := by
      rintro rfl
      exact hi (Function.update_self i none c.key)
    rw [Function.update_of_ne hne] at hi
    exact (List.mem_cons.mp (hkeys i hi)).resolve_left hne

omit [DecidableEq K] in
theorem ledger_freed (xs : List ℕ) : ledger (xs.foldl freeNode c) =
    { ledger c with fields := (xs.foldl freeNode c).toFields } := by
  induction xs generalizing c with
  | nil => rfl
  | cons x xs ih => exact ih

theorem ledger_aborted (keys : List K) :
    ledger (keys.foldl (fun c key => abortInflight c (some key)) c) = ledger c := by
  induction keys generalizing c with
  | nil => rfl
  | cons key keys ih => exact ih.trans (ledger_abortInflight (some key))

theorem Runs.clear (hheld : sound → ∃ xs, Held c xs) : Runs sound .clear c (clear c) := by
  refine .turn fun hguard => ?_
  have habort := ledger_aborted (c := c) (c.inflight.map Fetch.key)
  obtain ⟨-, hfields, hheap⟩ := foldl_abortInflight (c.inflight.map Fetch.key) c
  have hclear : ledger (PowerCache.clear c) = { ledger c with
      map := .empty, smallMap := .empty, ghostMap := .empty, smallSize := 0, currentWeight := 0
      fields := (PowerCache.clear c).toFields } := by
    unfold PowerCache.clear
    simp only []
    generalize (c.inflight.map Fetch.key).foldl (fun c key => abortInflight c (some key)) c = c'
      at habort ⊢
    have hfreed := ledger_freed (c := c') (walk c'.links.next c'.nextNode c'.main.head)
    generalize (walk c'.links.next c'.nextNode c'.main.head).foldl freeNode c' = c'' at hfreed ⊢
    have hconfig : c''.toConfig = c.toConfig :=
      (congrArg Ledger.config hfreed).trans (congrArg Ledger.config habort)
    have hevictions : c''.counters.evictions = c.counters.evictions :=
      (congrArg Ledger.evictions hfreed).trans (congrArg Ledger.evictions habort)
    have hlog : c''.log = c.log := (congrArg Ledger.log hfreed).trans (congrArg Ledger.log habort)
    simp only [ledger, hconfig, hevictions, hlog]
  rw [hclear]
  refine .clears _ rfl fun hs i => ?_
  obtain ⟨xs, hxs⟩ := hheld hs
  have hwalk : walk c.links.next c.nextNode c.main.head = xs := hxs.linked.walk_next hxs.length_le
  unfold PowerCache.clear
  simp only [hheap, hwalk]
  refine foldl_freeNode_key (fun j hj => ?_) i
  rw [hfields] at hj
  obtain ⟨k, hk⟩ := Option.ne_none_iff_exists'.mp hj
  exact ((hxs.indexes.get_iff k j).mp ((hguard.keyed hs).2 j k hk)).1

/-- The cache a call starts from: `resize` sets the limits first. -/
def begun (c : Cache K V) : Call K V → Cache K V
  | .event ev => limited c ev
  | .getOrSet _ _ _ _ _ _ _ | .clear => c

omit [DecidableEq K] in
theorem Guarded.begun (h : Guarded sound c) (cl : Call K V) : Guarded sound (begun c cl) := by
  cases cl with
  | event ev =>
    cases ev with
    | resize n w => exact ⟨h.sketch, fun hs => ⟨(h.keyed hs).1, (h.keyed hs).2⟩⟩
    | _ => exact h
  | getOrSet | clear => exact h

theorem Runs.call (hheld : sound → ∃ xs, Held c xs) : Runs sound cl (begun c cl) (call c cl) := by
  cases cl with
  | event ev => exact event
  | getOrSet k factory ttl weight swr now setNow =>
    refine getOrSet rfl fun v hv => ?_
    rcases hv with rfl | rfl <;> exact ⟨rfl, rfl⟩
  | clear => exact clear hheld

theorem guarded_run (cs : List (Call K V)) (hguard : Guarded sound c)
    (hheld : sound → ∃ xs, Held c xs) (hok : sound → Meets call CallOk c cs) :
    Guarded sound (run call c cs) ∧ (sound → ∃ xs, Held (run call c cs) xs) := by
  induction cs generalizing c with
  | nil => exact ⟨hguard, hheld⟩
  | cons cl cs ih =>
    have hcall : Turns true sound cl (ledger (PowerCache.begun c cl)) (ledger (call c cl)) :=
      Runs.call hheld (hguard.begun cl)
    refine ih (hcall.guarded (hguard.begun cl)) (fun hs => ?_) fun hs => (hok hs).2
    obtain ⟨xs, hxs⟩ := hheld hs
    exact hxs.call (hok hs).1

end PerformanceHelpers.PowerCache
