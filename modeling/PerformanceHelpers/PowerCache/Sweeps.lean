import PerformanceHelpers.PowerCache.ListRuns
import PerformanceHelpers.PowerCache.Trim

/- What `evict` and the sweep of `resize` take out of an LRU list without costs.

   From the head a sweep takes the first nodes of the list, and comes to the head again
   (`Swept`). Only the arbitration of an admission window evicts a node in the middle of
   the list. It leaves the candidate behind that node, where the next sweep starts
   (`rejected_challenger_moves_sweep`); in a run whose arbitrations take the first node
   or the last, every sweep starts from the head. -/
namespace PerformanceHelpers.PowerCache

variable {K V : Type} {c c' c'' : Cache K V} {xs xs' l r : List ℕ} {ms ms' : List (Mark K)}
  {i m n : ℕ} {k : K} {v : V} {w x now : ℚ}

def evicted (c : Cache K V) (i : ℕ) : Callback K V := .onEvict (c.key i) (c.value i) "evicted"

/-- The list, from its head on. -/
def nodes (c : Cache K V) : List ℕ := walk c.links.next c.nextNode c.main.head

theorem Ready.nodes_eq (h : Ready c xs) : nodes c = xs := h.linked.walk_next h.length_le

/-- From `c` to `c'` the first `n` nodes were evicted, in their order. -/
structure EvictsFirst (c : Cache K V) (n : ℕ) (c' : Cache K V) : Prop where
  log : c'.log = c.log ++ ((nodes c).take n).map (evicted c)
  rest : nodes c' = (nodes c).drop n
  entries : SameOn (nodes c') c.toFields c'.toFields

variable [DecidableEq K]

/-- `evict` and `resize` evict from the head on. -/
structure HeadFirst (c : Cache K V) : Prop where
  evict : ∀ n : ℕ, ∃ c', evict c n = .ok (c', min n (nodes c).length) ∧ EvictsFirst c n c'
  resize : ∀ maxEntries maxWeight, ∃ n, EvictsFirst c n (resize c maxEntries maxWeight)

/-! ## A sweep from the head -/

/-- From the list `xs` the first `n` nodes were evicted, and the candidate is at the head. -/
structure Swept (c : Cache K V) (xs : List ℕ) (n : ℕ) (c' : Cache K V) : Prop where
  ready : Ready c' (xs.drop n)
  head : AtHead c'
  config : c'.toConfig = c.toConfig
  entries : SameOn (xs.drop n) c.toFields c'.toFields
  log : c'.log = c.log ++ (xs.take n).map (evicted c)

omit [DecidableEq K] in
theorem SameOn.evicted (h : SameOn xs c.toFields c'.toFields) :
    xs.map (evicted c') = xs.map (evicted c) := by
  apply List.map_congr_left
  intro j hj
  obtain ⟨hkey, hvalue, -⟩ := h j hj
  simp only [PowerCache.evicted, hkey, hvalue]

namespace Swept

section
omit [DecidableEq K]

theorem refl (h : Ready c xs) (hhead : AtHead c) : Swept c xs 0 c :=
  ⟨h, hhead, rfl, .refl _ _, by simp⟩

theorem nil (h : Ready c []) (hhead : AtHead c) (n : ℕ) : Swept c [] n c := by
  refine ⟨?_, hhead, rfl, ?_, ?_⟩
  · rw [List.drop_nil]
    exact h
  · rw [List.drop_nil]
    exact .refl _ _
  · rw [List.take_nil, List.map_nil, List.append_nil]

theorem trans (h : Swept c xs n c') (h' : Swept c' (xs.drop n) m c'') : Swept c xs (n + m) c'' := by
  have hsub : (xs.drop n).drop m ⊆ xs.drop n := List.drop_subset m _
  have htake : (xs.drop n).take m ⊆ xs.drop n := List.take_subset m _
  refine ⟨?_, h'.head, h'.config.trans h.config, ?_, ?_⟩
  · rw [← List.drop_drop]
    exact h'.ready
  · rw [← List.drop_drop]
    exact (h.entries.mono hsub).trans h'.entries
  · rw [h'.log, h.log, List.take_add, List.map_append, (h.entries.mono htake).evicted,
      List.append_assoc]

end

protected theorem evictNode (h : Ready c (i :: r)) (hhead : AtHead c) : Swept c (i :: r) 1 (evictNode c i) := by
  have hlist : Ready c ([] ++ i :: r) := h
  obtain ⟨k, hk⟩ := h.keyed (i := i) (by simp)
  have hgoes := hlist.evictNode hk fun _ => rfl
  have hnot : i ∉ r := by simpa using hlist.toListed.notMem
  have hprev : (abortInflight c (c.key i)).links.prev i = none := by
    rw [abortInflight_toHeap]
    exact hlist.prev_eq
  have hpol : (abortInflight c (c.key i)).policy ≠ .s3fifo := by
    rw [abortInflight_toConfig]
    exact h.policy
  obtain ⟨cs, hdrop⟩ := dropNode_eq (abortInflight c (c.key i)) i true "evicted"
  refine ⟨hgoes.ready, ?_, hgoes.moves.config h.toListed, ?_, ?_⟩
  · exact (hhead.abortInflight (c.key i)).dropNode hpol fun _ => Or.inl hprev
  · have hsame : SameOn r (abortInflight c (c.key i)).toFields (evictNode c i).toFields := by
      rw [evictNode, hdrop]
      exact unlinkNode_sameOn hnot
    rw [abortInflight_toFields] at hsame
    exact hsame
  · rw [evictNode, hdrop]
    show (abortInflight c (c.key i)).log ++ _ = _
    rw [abortInflight_log, abortInflight_toFields]
    rfl

protected theorem settleCandidate (h : Swept c xs n c') : Swept c xs n (settleCandidate c') := by
  have hready := h.ready.settleCandidate.ready
  unfold settleCandidate at hready ⊢
  by_cases hnone : c'.evictionCandidate = none
  · rw [if_pos hnone] at hready ⊢
    exact ⟨hready, Or.inr rfl, h.config, h.entries, h.log⟩
  · rw [if_neg hnone]
    exact h

end Swept

namespace Ready

theorem sweepCount (h : Ready c xs) (hhead : AtHead c) :
    Swept c xs n (evictCount n c).1 ∧ (evictCount n c).2 = min n xs.length := by
  induction n generalizing c xs with
  | zero => exact ⟨.refl h hhead, by simp [evictCount]⟩
  | succ n ih =>
    have hvictim : victim c = xs.head? := hhead.victim.trans h.linked.head_eq
    rw [evictCount]
    cases xs with
    | nil =>
      simp only [List.head?_nil] at hvictim
      simp only [hvictim]
      exact ⟨.nil h hhead _, by simp⟩
    | cons i r =>
      simp only [List.head?_cons] at hvictim
      have hfirst := Swept.evictNode h hhead
      obtain ⟨hrest, hcount⟩ := ih hfirst.ready hfirst.head
      simp only [hvictim]
      refine ⟨?_, ?_⟩
      · rw [Nat.add_comm]
        exact hfirst.trans hrest
      · rw [hcount, List.drop_one, List.tail_cons, List.length_cons]
        omega

theorem sweepLoop (h : Ready c xs) (hhead : AtHead c) (hcost : c.missCost = none) (turns : ℕ) :
    ∃ n, Swept c xs n (evictLoop turns c) := by
  induction turns generalizing c xs with
  | zero => exact ⟨0, .refl h hhead⟩
  | succ turns ih =>
    have hvictim : victim c = xs.head? := hhead.victim.trans h.linked.head_eq
    rw [evictLoop]
    split
    · rw [nextVictim_plain hcost, hvictim]
      cases xs with
      | nil => exact ⟨0, .refl h hhead⟩
      | cons i r =>
        have hfirst := Swept.evictNode h hhead
        obtain ⟨n, hrest⟩ := ih hfirst.ready hfirst.head (by rw [hfirst.config]; exact hcost)
        exact ⟨1 + n, hfirst.trans hrest⟩
    · exact ⟨0, .refl h hhead⟩

theorem sweep (h : Ready c xs) (hhead : AtHead c) (hpol : c.policy = .lru)
    (hcost : c.missCost = none) : ∃ n, Swept c xs n (evictIfNeeded c) := by
  obtain ⟨n, hloop⟩ := h.sweepLoop hhead hcost c.nextNode
  refine ⟨n, ?_⟩
  simp only [evictIfNeeded, hpol]
  exact hloop.settleCandidate

end Ready

/-! ## The arbitration -/

/-- The arbitration has to make room: `previousSize >= maxEntries`, or too much weight. -/
def atCapacity (c : Cache K V) (previousSize : ℕ) : Bool :=
  c.maxEntries.any (fun m => decide (m ≤ (previousSize : ℚ))) ||
    c.maxWeight.any fun m => decide (m < c.currentWeight)

/-- It displaces `v`, and not the challenger. -/
def displaces (c : Cache K V) (sketch : List K → Option K → ℕ) (challenger v : ℕ) : Bool :=
  decide (sketch c.counted (c.key v) < sketch c.counted (c.key challenger)) ||
    c.maxWeight.any fun m => decide (m < c.currentWeight)

/-- The arbitration evicts no node in the middle of the list: what makes room is the first,
and what is refused is the last. -/
def ArbitratesAtEnds (c : Cache K V) (sketch : List K → Option K → ℕ) (previousSize : ℕ) : Prop :=
  ¬FitsWindow c.toConfig c.map.size → atCapacity c previousSize → ∀ challenger ∈ (windowOldest c).2,
    ∀ v ∈ (windowVictim (windowOldest c).1).2,
      if displaces c sketch challenger v then c.links.prev v = none else c.links.next challenger = none

instance (c : Cache K V) (sketch : List K → Option K → ℕ) (previousSize : ℕ) :
    Decidable (ArbitratesAtEnds c sketch previousSize) :=
  inferInstanceAs (Decidable (_ → _ → ∀ challenger ∈ (windowOldest c).2,
    ∀ v ∈ (windowVictim (windowOldest c).1).2,
      if displaces c sketch challenger v then _ = none else _ = none))

def StoresAtEnds (c : Cache K V) (key : K) (value : V) (expiresAt : ℚ) (weight : Option Weight) :
    Prop :=
  let w := computeWeight c.weightFn value weight
  Windowed c.toConfig → oversized c w = false → c.map.get key = none → ∀ sketch ∈ c.sketch,
    ArbitratesAtEnds (enterWindow (countWeightError c value weight) key value w expiresAt) sketch
      c.map.size

instance (c : Cache K V) (key : K) (value : V) (expiresAt : ℚ) (weight : Option Weight) :
    Decidable (StoresAtEnds c key value expiresAt weight) :=
  inferInstanceAs (Decidable (_ → _ → _ → ∀ sketch ∈ c.sketch, _))

/-- The same of what `getOrSet` stores. -/
def ProducesAtEnds (c : Cache K V) (key : K) (factory : Factory V) (ttl : Option Ttl)
    (weight : Option Weight) (now : ℚ) : Prop :=
  match factory with
  | .value v | .returns v => ∀ x ∈ (expiresAtOf (ttl.getD c.defaultTTL) now).toOption,
    StoresAtEnds c key v x weight
  | .promises | .throws _ => True

instance (c : Cache K V) (key : K) : ∀ (factory : Factory V) (ttl : Option Ttl)
    (weight : Option Weight) (now : ℚ), Decidable (ProducesAtEnds c key factory ttl weight now)
  | .value v, ttl, weight, now | .returns v, ttl, weight, now =>
    inferInstanceAs (Decidable (∀ x ∈ (expiresAtOf (ttl.getD c.defaultTTL) now).toOption,
      StoresAtEnds c key v x weight))
  | .promises, _, _, _ | .throws _, _, _, _ => isTrue trivial

/-- The condition on a call: an arbitration takes the first node of the list or the last. -/
def AtEnds (c : Cache K V) : Call K V → Prop
  | .event (.set key value ttl weight now) =>
    ∀ x ∈ (expiresAtOf (ttl.getD c.defaultTTL) now).toOption, StoresAtEnds c key value x weight
  | .event (.setMany entries ttl weight now) =>
    ∀ x ∈ (expiresAtOf (ttl.getD .never) now).toOption,
      Meets (setManyOne x weight) (fun c p => StoresAtEnds c p.1 p.2 x weight) c entries
  | .getOrSet key factory ttl weight swr now setNow =>
    let found := findNode c key (swr.getD c.allowStale) now
    (found.2 = none → ProducesAtEnds (countMiss found.1 true) key factory ttl weight setNow) ∧
      ∀ i ∈ found.2, expiredAt found.1 i now → (factory.isFunction && staleServable found.1 i now) = false →
        ProducesAtEnds (countMiss (removeExpiredNode found.1 i) true) key factory ttl weight setNow
  | .event (.get _ _) | .event (.peek _ _) | .event (.has _ _ _) | .event (.getMany _ _)
  | .event (.touch _ _ _) | .event (.delete _) | .event (.evict _) | .event (.invalidate _)
  | .event (.getOrSetAsync _ _ _) | .event (.finishFetch _ _) | .event (.resize _ _)
  | .event (.cleanupExpiredUpTo _ _) | .event (.entries _) | .clear => True

instance (c : Cache K V) : ∀ cl, Decidable (AtEnds c cl)
  | .event (.set key value _ weight _) => inferInstanceAs (Decidable (∀ x ∈ _,
    StoresAtEnds c key value x weight))
  | .event (.setMany entries _ weight _) => inferInstanceAs (Decidable (∀ x ∈ _,
    Meets (setManyOne x weight) (fun c p => StoresAtEnds c p.1 p.2 x weight) c entries))
  | .getOrSet key factory ttl weight swr now setNow =>
    inferInstanceAs (Decidable ((_ → ProducesAtEnds _ key factory ttl weight setNow) ∧
      ∀ i ∈ (findNode c key (swr.getD c.allowStale) now).2, _ → _ →
        ProducesAtEnds _ key factory ttl weight setNow))
  | .event (.get _ _) | .event (.peek _ _) | .event (.has _ _ _) | .event (.getMany _ _)
  | .event (.touch _ _ _) | .event (.delete _) | .event (.evict _) | .event (.invalidate _)
  | .event (.getOrSetAsync _ _ _) | .event (.finishFetch _ _) | .event (.resize _ _)
  | .event (.cleanupExpiredUpTo _ _) | .event (.entries _) | .clear => isTrue trivial

protected theorem AtHead.promoteFromWindow (h : AtHead c) (hpol : c.policy ≠ .s3fifo) :
    AtHead (promoteFromWindow c i) :=
  ((h.remove hpol).insertAtMainSpaceMrU (i := i)).congr rfl rfl

theorem AtHead.evictByWindow (h : AtHead c) (hpol : c.policy ≠ .s3fifo)
    (hends : c.links.prev i = none ∨ c.links.next i = none) : AtHead (evictByWindow c i) :=
  h.dropNode hpol fun _ => hends

/-- All an arbitration may do, but for what the window remembers. -/
theorem arbitrateWindow_cases (c : Cache K V) (sketch : List K → Option K → ℕ) (n : ℕ) :
    arbitrateWindow c sketch n = c ∨ ∃ c', (∃ memo tail, c' = { c with
        windowStartMemo := memo, windowTail := tail }) ∧
      (arbitrateWindow c sketch n = c' ∨ (∃ i, arbitrateWindow c sketch n = promoteFromWindow c' i) ∨
        ∃ i v, ¬FitsWindow c.toConfig c.map.size ∧ atCapacity c n ∧ i ∈ (windowOldest c).2 ∧
          v ∈ (windowVictim (windowOldest c).1).2 ∧ arbitrateWindow c sketch n =
            if displaces c sketch i v then promoteFromWindow (evictByWindow c' v) i
            else evictByWindow { c' with counters := { c'.counters with
              rejectedAdmission := c'.counters.rejectedAdmission + 1 } } i) := by
  by_cases hfits : FitsWindow c.toConfig c.map.size
  · exact Or.inl (if_pos hfits)
  · right
    obtain ⟨memo, tail, hframe⟩ := windowOldest_frame c
    have hidem : windowOldest (windowOldest c).1 = windowOldest c := windowOldest_idem
    have hfits' : ¬(c.windowSize.all fun s => decide ((c.map.size : ℤ) ≤ s)) = true := hfits
    refine ⟨(windowOldest c).1, ⟨memo, tail, hframe⟩, ?_⟩
    unfold PowerCache.arbitrateWindow
    rw [if_neg hfits']
    cases hold : windowOldest c with
    | mk c' oldest =>
      rw [hold] at hframe hidem
      have hframe' : c' = { c with windowStartMemo := memo, windowTail := tail } := hframe
      cases oldest with
      | none => exact Or.inl rfl
      | some i =>
        right
        cases hv : windowVictim c' with
        | mk c'' victim =>
          have hsame : c'' = c' := by
            have hfst : (windowVictim c').1 = c' := by simp only [windowVictim, hidem]
            rw [hv] at hfst
            exact hfst
          subst hsame
          cases victim with
          | none => exact Or.inl ⟨i, by simp only [hv]⟩
          | some v =>
            have hcap : (c''.maxEntries.any (fun m => decide (m ≤ (n : ℚ))) ||
                c''.maxWeight.any fun m => decide (m < c''.currentWeight)) = atCapacity c n := by
              rw [hframe']
              rfl
            have hdisplaces : (decide (sketch c''.counted (c''.key v) < sketch c''.counted (c''.key i)) ||
                c''.maxWeight.any fun m => decide (m < c''.currentWeight)) = displaces c sketch i v := by
              rw [hframe']
              rfl
            simp only [hv, hcap]
            cases hfull : atCapacity c n with
            | false => exact Or.inl ⟨i, by simp⟩
            | true =>
              refine Or.inr ⟨i, v, hfits, rfl, rfl, rfl, ?_⟩
              rw [← hdisplaces]
              simp only [if_true, Bool.or_eq_true, decide_eq_true_eq]

theorem AtHead.arbitrateWindow {sketch : List K → Option K → ℕ} (h : AtHead c)
    (hpol : c.policy ≠ .s3fifo) (hends : ArbitratesAtEnds c sketch n) :
    AtHead (arbitrateWindow c sketch n) := by
  rcases arbitrateWindow_cases c sketch n with heq | ⟨c', ⟨memo, tail, hframe⟩, hcases⟩
  · rw [heq]
    exact h
  · have h' : AtHead c' := h.congr (by rw [hframe]) (by rw [hframe])
    have hpol' : c'.policy ≠ .s3fifo := by
      rw [hframe]
      exact hpol
    have hlinks : c'.links = c.links := by rw [hframe]
    rcases hcases with heq | ⟨i, heq⟩ | ⟨i, v, hfits, hcap, hi, hv, heq⟩
    · rw [heq]
      exact h'
    · rw [heq]
      exact h'.promoteFromWindow hpol'
    · have hend := hends hfits hcap i hi v hv
      rw [heq]
      split at hend
      · have hconfig : (unlinkNode c' v true).toConfig = c'.toConfig := unlinkNode_toConfig
        rw [← hlinks] at hend
        rw [if_pos ‹_›]
        refine (h'.evictByWindow hpol' (Or.inl hend)).promoteFromWindow ?_
        show (unlinkNode c' v true).policy ≠ .s3fifo
        rw [hconfig]
        exact hpol'
      · rw [← hlinks] at hend
        rw [if_neg ‹_›]
        exact AtHead.evictByWindow (h'.congr rfl rfl) hpol' (Or.inr hend)

protected theorem AtHead.insertNew (h : AtHead c) (hpol : c.policy = .lru)
    (hends : Windowed c.toConfig → ∀ sketch ∈ c.sketch,
      ArbitratesAtEnds (enterWindow c k v w x) sketch n) : AtHead (insertNew c k v w x n).1 := by
  have hlist : c.policy ≠ .s3fifo := by simp [hpol]
  have hinsert : AtHead (insertNode c k v w x) := h.insertNode hlist
  cases hsketch : c.sketch with
  | none =>
    rw [insertNew_plain hsketch]
    exact hinsert
  | some sketch =>
    by_cases hwindow : Windowed c.toConfig
    · have hwindow' : (c.windowSize.all fun n => decide (0 < n)) = true := hwindow
      have henter : AtHead (enterWindow c k v w x) := hinsert.congr rfl rfl
      have hpol' : (enterWindow c k v w x).policy ≠ .s3fifo := by
        have hconfig : (enterWindow c k v w x).toConfig = c.toConfig := insertNode_frame.1
        rw [hconfig]
        exact hlist
      simp only [insertNew, hsketch, hwindow', if_true, insertIntoWindow_eq hpol]
      exact henter.arbitrateWindow hpol' (hends hwindow sketch hsketch)
    · have hwindow' : (c.windowSize.all fun n => decide (0 < n)) = false := by
        simpa [Windowed] using hwindow
      simp only [insertNew, hsketch, hwindow', Bool.false_eq_true, if_false]
      split
      · exact h.congr rfl rfl
      · exact hinsert

omit [DecidableEq K] in
protected theorem AtHead.countWeightError {weight : Option Weight} (h : AtHead c) :
    AtHead (countWeightError c v weight) := by
  unfold countWeightError
  split <;> exact h

omit [DecidableEq K] in
protected theorem AtHead.countKey (h : AtHead c) (key : K) : AtHead (countKey c key) := by
  unfold countKey
  split <;> exact h

/-! ## Calls -/

structure Aimed (c : Cache K V) (xs : List ℕ) : Prop extends Ready c xs where
  head : AtHead c
  plain : c.policy = .lru ∧ c.missCost = none

namespace Aimed

section
variable (h : Aimed c xs)
include h

theorem goes (hgoes : Goes c xs ms c' xs') (hhead : AtHead c') : Aimed c' xs' := by
  have hconfig := hgoes.moves.config h.toListed
  refine ⟨hgoes.ready, hhead, ?_⟩
  rw [hconfig]
  exact h.plain

protected theorem limited (ev : Event K V) : Aimed (limited c ev) xs := by
  refine ⟨h.toReady.limited ev, ?_, ?_⟩
  · cases ev <;> exact h.head
  · cases ev <;> exact h.plain

theorem sweep : ∃ n, Swept c xs n (evictIfNeeded c) :=
  h.toReady.sweep h.head h.plain.1 h.plain.2

theorem headFirst : HeadFirst c := by
  have hfirst : ∀ c' n, Ready c' (xs.drop n) → SameOn (xs.drop n) c.toFields c'.toFields →
      c'.log = c.log ++ (xs.take n).map (evicted c) → EvictsFirst c n c' := by
    intro c' n hready hsame hlog
    refine ⟨?_, ?_, ?_⟩
    · rw [h.nodes_eq]
      exact hlog
    · rw [h.nodes_eq]
      exact hready.nodes_eq
    · rw [hready.nodes_eq]
      exact hsame
  refine ⟨fun n => ?_, fun maxEntries maxWeight => ?_⟩
  · obtain ⟨hswept, hcount⟩ := h.toReady.sweepCount (n := n) h.head
    have hsettled := hswept.settleCandidate
    refine ⟨_, ?_, hfirst _ n hsettled.ready hsettled.entries hsettled.log⟩
    have hneg : ¬(n : ℤ) < 0 := by omega
    simp only [evict, if_neg hneg, Int.toNat_natCast, hcount, h.nodes_eq]
  · obtain ⟨n, hswept⟩ := (h.limited (.resize maxEntries maxWeight)).sweep
    have hready := (hswept.ready.cursor none (by simp)).ready.toSettled.head.ready
    exact ⟨n, hfirst _ n hready hswept.entries hswept.log⟩

protected theorem putValue (hw : 0 ≤ w) (hends : Windowed c.toConfig → c.map.get k = none →
      ∀ sketch ∈ c.sketch, ArbitratesAtEnds (enterWindow c k v w x) sketch c.map.size) :
    ∃ xs', Aimed (putValue c k v w x).1 xs' := by
  obtain ⟨ms, xs', hgoes, -⟩ := h.toReady.putValue (k := k) (v := v) (x := x) hw
  refine ⟨xs', h.goes hgoes ?_⟩
  unfold putValue
  rw [lookup_list h.policy]
  cases hi : c.map.get k with
  | some i => exact h.head.updateExisting h.policy
  | none => exact h.head.insertNew h.plain.1 fun hwindow => hends hwindow hi

protected theorem countWeightError (v : V) (weight : Option Weight) :
    Aimed (countWeightError c v weight) xs :=
  h.goes (h.toReady.countWeightError v weight) h.head.countWeightError

end

variable {weight : Option Weight}

theorem putCounted (h : Aimed c xs) (hends : StoresAtEnds c k v x weight)
    (hover : oversized c (computeWeight c.weightFn v weight) = false) :
    ∃ xs', Aimed (putValue (countWeightError c v weight) k v
      (computeWeight c.weightFn v weight) x).1 xs' := by
  have hconfig : (countWeightError c v weight).toConfig = c.toConfig :=
    countWeightError_toConfig
  have hmap : (countWeightError c v weight).map = c.map := by
    unfold countWeightError
    split <;> rfl
  apply (h.countWeightError v weight).putValue (computeWeight_nonneg c.weightFn v weight)
  rw [hconfig, hmap]
  exact fun hwindow => hends hwindow hover

protected theorem countKey (h : Aimed c xs) (key : K) : Aimed (countKey c key) xs :=
  h.goes (h.toReady.countKey key) (h.head.countKey key)

theorem store (h : Aimed c xs) (hends : StoresAtEnds c k v x weight) :
    AtHead (store c k v x weight).1 := by
  rw [store_eq]
  split
  · exact h.head.countWeightError.congr rfl rfl
  · next hover =>
    obtain ⟨xs', hput⟩ := h.putCounted hends (by simpa using hover)
    have hkey := hput.countKey k
    simp only []
    split
    · obtain ⟨n, hswept⟩ := hkey.sweep
      exact hswept.head
    · exact hkey.head

theorem setManyOne_eq {p : K × V} (hpol : c.policy ≠ .s3fifo) :
    setManyOne x weight c p = if oversized c (computeWeight c.weightFn p.2 weight) then
        reject (countWeightError c p.2 weight) p.1 p.2
      else
        let put := putValue (countWeightError c p.2 weight) p.1 p.2
          (computeWeight c.weightFn p.2 weight) x
        if put.2 then countKey put.1 p.1 else put.1 := by
  have hconfig : (countWeightError c p.2 weight).toConfig = c.toConfig :=
    countWeightError_toConfig
  have hover : ∀ w, oversized (countWeightError c p.2 weight) w = oversized c w := by
    intro w
    simp only [oversized, hconfig]
  have hlookup : lookup (countWeightError c p.2 weight) p.1 =
      (countWeightError c p.2 weight).map.get p.1 := by
    apply lookup_list
    rw [hconfig]
    exact hpol
  simp only [setManyOne, putValue, hover, hlookup]
  split
  · rfl
  · cases (countWeightError c p.2 weight).map.get p.1 with
    | some i => rfl
    | none =>
      simp only []
      generalize insertNew (countWeightError c p.2 weight) p.1 p.2
        (computeWeight c.weightFn p.2 weight) x _ = put
      obtain ⟨c', stored⟩ := put
      cases stored <;> rfl

protected theorem setManyOne {p : K × V} (h : Aimed c xs)
    (hends : StoresAtEnds c p.1 p.2 x weight) : ∃ xs', Aimed (setManyOne x weight c p) xs' := by
  obtain ⟨ms, xs', hgoes, -⟩ := h.toReady.setManyOne (x := x) weight p
  refine ⟨xs', h.goes hgoes ?_⟩
  rw [setManyOne_eq h.policy]
  split
  · exact h.head.countWeightError.congr rfl rfl
  · next hover =>
    obtain ⟨xs'', hput⟩ := h.putCounted hends (by simpa using hover)
    simp only []
    split
    · exact (hput.countKey p.1).head
    · exact hput.head

theorem setManyLoop {ps : List (K × V)} (h : Aimed c xs)
    (hends : Meets (setManyOne x weight) (fun c p => StoresAtEnds c p.1 p.2 x weight) c ps) :
    ∃ xs', Aimed (ps.foldl (setManyOne x weight) c) xs' := by
  induction ps generalizing c xs with
  | nil => exact ⟨xs, h⟩
  | cons p ps ih =>
    obtain ⟨xs', hone⟩ := h.setManyOne hends.1
    exact ih hone hends.2

end Aimed

/-! ## Calls that take nodes out -/

section
variable (h : AtHead c)
include h

protected theorem AtHead.touch {ttl : Option Ttl} (hpol : c.policy ≠ .s3fifo) :
    AtHead (settleCall c (touch c k ttl now) (Outcome.flag (K := K) (V := V))).1 := by
  have hfetch : AtHead (fetchValidNode c k false false now).1 := h.fetchValidNode hpol
  unfold touch
  cases hfound : fetchValidNode c k false false now with
  | mk c' found =>
    rw [hfound] at hfetch
    cases found with
    | none => exact hfetch
    | some i =>
      obtain rfl := fetchValidNode_found hfound
      cases ttl with
      | none => exact h.moveToTail hpol
      | some ttl =>
        cases hx : expiresAtOf ttl now with
        | error e =>
          simp only [hx, settleCall]
          exact h
        | ok e =>
          have hnote : AtHead { c' with expiresAt := Function.update c'.expiresAt i e } := h
          simp only [hx, settleCall]
          exact hnote.moveToTail hpol

protected theorem AtHead.get (hpol : c.policy ≠ .s3fifo) : AtHead (get c k now).1 := by
  have hfetch : AtHead (fetchValidNode c k false true now).1 := h.fetchValidNode hpol
  unfold get
  cases hfound : fetchValidNode c k false true now with
  | mk c' found =>
    rw [hfound] at hfetch
    cases found with
    | none => exact hfetch
    | some i =>
      obtain rfl := fetchValidNode_found hfound
      have hhit : AtHead (countHit (moveToTail c' i)) := h.moveToTail hpol
      exact hhit.countKey k

theorem AtHead.getMany {ign : Bool} {keys : List (K × ℚ)} {vs : List (K × Option V)}
    (hready : Ready c xs) :
    AtHead (keys.foldl (getManyOne ign) (c, vs)).1 := by
  induction keys generalizing c vs xs with
  | nil => exact h
  | cons q keys ih =>
    have hkeeps : LookupKeeps c q.1 ign q.2 := hready.head_lookup h
    obtain ⟨xs', hone⟩ := hready.getManyOne vs hkeeps
    rw [List.foldl_cons]
    exact ih (h.getManyOne hready.policy) hone.ready

section
variable (hpol : c.policy ≠ .s3fifo)
include hpol

protected theorem AtHead.delete : AtHead (delete c k).1 := by
  have habort := h.abortInflight (some k)
  have hpol' : (abortInflight c (some k)).policy ≠ .s3fifo := by
    rw [abortInflight_toConfig]
    exact hpol
  simp only [delete]
  cases lookup (abortInflight c (some k)) k with
  | none => exact habort
  | some i =>
    have hunlink : AtHead (unlinkNode (abortInflight c (some k)) i false) :=
      habort.unlinkNode hpol' (by simp)
    exact hunlink.congr rfl rfl

theorem AtHead.invalidateLoop {doomed : List ℕ} :
    AtHead (doomed.foldl invalidateOne (c, n)).1 := by
  induction doomed generalizing c n with
  | nil => exact h
  | cons i doomed ih =>
    rw [List.foldl_cons]
    unfold invalidateOne
    simp only []
    split
    · have hconfig : (unlinkNode (abortInflight c (c.key i)) i false).toConfig =
          c.toConfig := unlinkNode_toConfig.trans abortInflight_toConfig
      have hpol' : (abortInflight c (c.key i)).policy ≠ .s3fifo := by
        rw [abortInflight_toConfig]
        exact hpol
      apply ih
      · exact (h.abortInflight (c.key i)).dropNode hpol' (by simp)
      · show (unlinkNode (abortInflight c (c.key i)) i false).policy ≠ .s3fifo
        rw [hconfig]
        exact hpol
    · exact ih h hpol

protected theorem AtHead.invalidate {p : Option K → Option V → Bool} :
    AtHead (invalidate c p).1 := by
  unfold invalidate realignCandidate
  simp only []
  split
  · exact h.invalidateLoop hpol
  · exact Or.inr rfl

protected theorem AtHead.cleanupLoop {maxScan : Option ℚ} {turns scanned : ℕ} {node : Option ℕ}
    : AtHead (cleanupLoop now maxScan turns scanned node c).1 := by
  induction turns generalizing c scanned node with
  | zero => exact h
  | succ turns ih =>
    cases node with
    | none => exact h
    | some i =>
      rw [cleanupLoop]
      split
      · split
        · have hconfig : (unlinkNode c i false).toConfig = c.toConfig := unlinkNode_toConfig
          refine ih (h.removeExpiredNode hpol) ?_
          show (unlinkNode c i false).policy ≠ .s3fifo
          rw [hconfig]
          exact hpol
        · exact ih h hpol
      · exact h

end

protected theorem AtHead.refreshStaleEntry : AtHead (refreshStaleEntry c k) := by
  unfold refreshStaleEntry
  split
  · exact h
  · split <;> exact h

protected theorem AtHead.getOrSetAsync {swr : Option Bool} (hpol : c.policy ≠ .s3fifo) :
    AtHead (getOrSetAsync c k swr now) := by
  have hfetch : ∀ c' : Cache K V, AtHead c' → AtHead (if hasInflight c' (some k) then c'
      else addInflight (countMiss c' true) k) := by
    intro c' h'
    split
    · exact h'
    · exact (h'.countMiss true).congr rfl rfl
  unfold getOrSetAsync
  cases hi : c.map.get k with
  | none => exact hfetch c h
  | some i =>
    simp only []
    split
    · split
      · have hserve : AtHead { countHit (moveToTail c i) with
            counters := { (countHit (moveToTail c i)).counters with
              staleServes := (countHit (moveToTail c i)).counters.staleServes + 1 } } :=
          h.moveToTail hpol
        exact hserve.refreshStaleEntry
      · exact hfetch _ (h.removeExpiredNode hpol)
    · exact h.moveToTail hpol

end

namespace Aimed

variable {factory : Factory V} {weight : Option Weight} {ttl : Option Ttl}

theorem store_all (h : Aimed c xs)
    (hends : ∀ x ∈ (expiresAtOf (ttl.getD c.defaultTTL) now).toOption, StoresAtEnds c k v x weight) :
    AtHead (settleCall c (set c k v ttl weight now) (Outcome.flag (K := K) (V := V))).1 := by
  unfold set
  cases hx : expiresAtOf (ttl.getD c.defaultTTL) now with
  | error e => exact h.head
  | ok x => exact h.store (hends x (by rw [hx]; rfl))

protected theorem step {ev : Event K V} (h : Aimed c xs) (hends : AtEnds c (.event ev)) :
    ∃ xs', Aimed (step c ev).1 xs' := by
  obtain ⟨ms, xs', hgoes, -⟩ := h.toReady.step (h.toReady.head_ok ev h.head)
  refine ⟨xs', (h.limited ev).goes hgoes ?_⟩
  have hpol := h.policy
  cases ev with
  | set key value ttl weight now => exact h.store_all hends
  | setMany entries ttl weight now =>
    simp only [step, setMany]
    cases hx : expiresAtOf (ttl.getD .never) now with
    | error e => exact h.head
    | ok x =>
      obtain ⟨xs'', hloop⟩ := h.setManyLoop (hends x (by rw [hx]; rfl))
      obtain ⟨n, hswept⟩ := hloop.sweep
      exact hswept.head
  | get key now => exact h.head.get hpol
  | peek key now | has key ign now => exact h.head.fetchValidNode hpol
  | getMany keys ign => exact h.head.getMany h.toReady
  | touch key ttl now => exact h.head.touch hpol
  | delete key => exact h.head.delete hpol
  | evict n =>
    simp only [step, evict]
    split
    · exact h.head
    · exact (h.toReady.sweepCount h.head).1.settleCandidate.head
  | invalidate p => exact h.head.invalidate hpol
  | getOrSetAsync key swr now => exact h.head.getOrSetAsync hpol
  | finishFetch key abort =>
    cases abort with
    | false => exact h.head
    | true => exact (h.head.abortInflight (some key)).congr rfl rfl
  | resize n w => exact Or.inr rfl
  | cleanupExpiredUpTo maxScan now =>
    have hloop : AtHead (cleanupLoop now maxScan (c.nextNode + 1) 0 (sweepStart c) c).1 :=
      h.head.cleanupLoop hpol
    exact hloop.congr rfl rfl
  | entries order => exact h.head

protected theorem produce (h : Aimed c xs)
    (hends : ProducesAtEnds c k factory ttl weight now) :
    ∃ xs', Aimed (produce c k factory ttl weight now).1 xs' := by
  obtain ⟨ms, xs', hgoes, -⟩ : ∃ ms xs', Goes c xs ms
      (produce c k factory ttl weight now).1 xs' ∧ _ :=
    h.toReady.produce factory ttl weight now
  refine ⟨xs', h.goes hgoes ?_⟩
  have hset : ∀ v, (∀ x ∈ (expiresAtOf (ttl.getD c.defaultTTL) now).toOption,
      StoresAtEnds c k v x weight) →
      AtHead (produce c k (.value v) ttl weight now).1 := by
    intro v hv
    have hall := h.store_all hv
    simp only [produce]
    cases hs : set c k v ttl weight now with
    | error e => exact h.head
    | ok r =>
      rw [hs] at hall
      exact hall
  cases factory with
  | value v | returns v => exact hset v hends
  | promises | throws _ => exact h.head

protected theorem countMiss (h : Aimed c xs) : Aimed (countMiss c true) xs :=
  h.goes (h.toReady.countMiss true) (h.head.countMiss true)

protected theorem serveFound {setNow : ℚ}
    (h : Aimed c (l ++ i :: r)) (hk : c.key i = some k)
    (hends : expiredAt c i now → (factory.isFunction && staleServable c i now) = false →
      ProducesAtEnds (countMiss (removeExpiredNode c i) true) k factory ttl weight setNow) :
    ∃ xs', Aimed (serveFound c k factory ttl weight now setNow i).1 xs' := by
  have hdrop := h.toReady.head_droppable h.head (i := i) (by simp)
  obtain ⟨ms, xs', hgoes, -⟩ : ∃ ms xs', Goes c (l ++ i :: r) ms
      (serveFound c k factory ttl weight now setNow i).1 xs' ∧ _ :=
    h.toReady.serveFound hk fun _ _ => hdrop
  unfold serveFound at hgoes ⊢
  cases hexp : expiredAt c i now with
  | false =>
    simp only [hexp, Bool.false_eq_true, if_false] at hgoes ⊢
    exact ⟨xs', h.goes hgoes (h.head.moveToTail h.policy)⟩
  | true =>
    cases hserve : factory.isFunction && staleServable c i now with
    | true =>
      simp only [hexp, hserve, if_true] at hgoes ⊢
      have hhead : AtHead { countHit (moveToTail c i) with
          counters := { (countHit (moveToTail c i)).counters with
            staleServes := (countHit (moveToTail c i)).counters.staleServes + 1 } } :=
        h.head.moveToTail h.policy
      exact ⟨xs', h.goes hgoes hhead.refreshStaleEntry⟩
    | false =>
      have hremove := h.toReady.removeExpiredNode hk (h.toReady.droppable hdrop)
      have hgone := (h.goes hremove (h.head.removeExpiredNode h.policy)).countMiss
      simp only [if_true, Bool.false_eq_true, if_false]
      exact hgone.produce (hends hexp hserve)

theorem getOrSet
    {swr : Option Bool} {setNow : ℚ} (h : Aimed c xs)
    (hends : AtEnds c (.getOrSet k factory ttl weight swr now setNow)) :
    ∃ xs', Aimed (getOrSet c k factory ttl weight swr now setNow).1 xs' := by
  obtain ⟨hmiss, hfound⟩ := hends
  rw [getOrSet_eq]
  cases hallow : swr.getD c.allowStale with
  | true =>
    have hfind : findNode c k true now = (c, lookup c k) := by
      simp only [findNode, if_true]
      cases lookup c k <;> simp [h.policy]
    rw [hallow, hfind] at hmiss hfound
    rw [hfind]
    cases hi : lookup c k with
    | none => exact h.countMiss.produce (hmiss hi)
    | some i =>
      obtain ⟨l, r, rfl, hk⟩ := h.toReady.lookup_split hi
      exact h.serveFound hk (hfound i hi)
  | false =>
    have hfind : findNode c k false now = fetchValidNode c k false false now := rfl
    rw [hallow, hfind] at hmiss hfound
    rw [hfind]
    have hkeeps : LookupKeeps c k false now := h.toReady.head_lookup h.head
    rcases h.toReady.fetchValidNode false hkeeps with ⟨c', ms, xs', hfetch, -, hgoes, -⟩ |
      ⟨i, l, r, hfetch, -, hi, rfl, hk⟩
    · have hhead : AtHead (fetchValidNode c k false false now).1 :=
        h.head.fetchValidNode h.policy
      rw [hfetch] at hmiss hhead ⊢
      exact (h.goes hgoes hhead).countMiss.produce (hmiss rfl)
    · rw [hfetch] at hfound ⊢
      exact h.serveFound hk (hfound i rfl)

protected theorem clear (h : Aimed c xs) : Aimed (clear c) [] := by
  refine ⟨h.toReady.clear, Or.inl rfl, ?_⟩
  rw [(clear_frame h.layout).1]
  exact h.plain

theorem call {cl : Call K V} (h : Aimed c xs) (hends : AtEnds c cl) : ∃ xs', Aimed (call c cl) xs' := by
  cases cl with
  | event ev => exact h.step hends
  | getOrSet key factory ttl weight swr now setNow => exact h.getOrSet hends
  | clear => exact ⟨[], h.clear⟩

end Aimed

/-! ## Runs -/

/-- Where every arbitration takes the first node of the list or the last, `evict` and
`resize` evict from the head on, in every state of a run. -/
theorem sweeps_evict_first {o : Options K V} {c : Cache K V} (hnew : new o = .ok c)
    (hpol : o.policy = .lru) (hcost : o.missCost = none) (cs : List (Call K V))
    (hends : Meets call AtEnds c cs) : Always call HeadFirst c cs := by
  have hstart : ∃ xs, Aimed c xs := by
    refine ⟨[], (Held.new hnew (by simp [hpol])).toReady, ?_, ?_⟩
    · obtain ⟨maxEntries, inflight, maxWeight, pool, rfl, -⟩ := new_eq_initial hnew
      exact Or.inl rfl
    · obtain ⟨maxEntries, inflight, maxWeight, pool, rfl, -⟩ := new_eq_initial hnew
      exact ⟨hpol, hcost⟩
  have hall : Always call (fun c => ∃ xs, Aimed c xs) c cs :=
    always_of_meets (fun _ _ ⟨_, h⟩ hends => h.call hends) hstart hends
  exact hall.mono fun _ ⟨_, h⟩ => h.headFirst

/-- A window of one entry in front of which there is room, and then one entry: the new
entries are let in by how often their keys were used. -/
theorem sweeps_evict_first_window :
    let sketch : List ℕ → Option ℕ → ℕ := fun keys key => key.elim 0 keys.count
    let o : Options ℕ ℕ := { maxEntries := some 4, admission := some sketch, windowSize := .size (some 1) }
    let c : Cache ℕ ℕ := initial o (some 4) 4 none (some 1000)
    Always call HeadFirst c [.event (.set 1 10 none none 1), .event (.set 2 20 (some (.ms 3)) none 2),
      .event (.setMany [(3, 30), (4, 40)] none none 3), .event (.get 3 4), .event (.get 2 6),
      .getOrSet 5 (.returns 50) none none none 7 8, .event (.delete 1), .event (.get 5 9),
      .event (.resize (some 2) none), .event (.get 5 10), .event (.set 6 60 none none 11)] := by
  intro sketch o c
  have hnew : new o = .ok c := rfl
  refine sweeps_evict_first hnew rfl rfl _ ?_
  clear hnew
  subst sketch o c
  decide +kernel

/-- A full list of four, and a key that was asked for no more often than the others: the
oldest node of the window is refused, and `evict(1)` starts from the node behind it. -/
theorem rejected_challenger_moves_sweep :
    let sketch : List ℕ → Option ℕ → ℕ := fun keys key => key.elim 0 keys.count
    let o : Options ℕ ℕ := { maxEntries := some 4, admission := some sketch, windowSize := .size (some 1) }
    let c : Cache ℕ ℕ := initial o (some 4) 4 none (some 1000)
    new o = .ok c ∧ ¬Always call HeadFirst c [.event (.set 1 10 none none 1),
      .event (.set 2 20 none none 2), .event (.set 3 30 none none 3), .event (.set 4 40 none none 4),
      .event (.set 5 50 none none 5)] := by
  intro sketch o c
  refine ⟨rfl, fun h => ?_⟩
  obtain ⟨c', hevict, hfirst⟩ := h.last.evict 1
  have hlog := hfirst.log
  have hstep : ∀ s : Cache ℕ ℕ, evict s ((1 : ℕ) : ℤ) = .ok (c', min 1 (nodes s).length) →
      (step s (.evict ((1 : ℕ) : ℤ))).1 = c' := by
    intro s hs
    simp only [step, hs, settleCall]
  rw [← hstep _ hevict] at hlog
  revert hlog
  clear hevict hfirst hstep h
  subst sketch o c
  decide +kernel

end PerformanceHelpers.PowerCache
