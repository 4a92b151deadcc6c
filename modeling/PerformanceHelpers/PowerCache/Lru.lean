import PerformanceHelpers.PowerCache.Refines

/- The LRU cache refines its reference model.

   Every call keeps `Refines` and returns what the model returns, as long as 0 is
   not taken for a time: 0 as an `expiresAt` means "never" to the code, and a clock
   that reads 0 is not compared with anything. -/
namespace PerformanceHelpers.PowerCache
open Function (update_self update_of_ne)

section
variable {K V : Type} {c c' : Cache K V} {m : Recency K V} {xs l r : List ℕ}
  {i : ℕ} {e e' : Entry K V} {les res : List (Entry K V)} {k : K} {now : ℚ}

/-! ## Reads -/

def ReadOk (c : Cache K V) (key : K) (ignoreExpiry : Bool) (now : ℚ) : Prop :=
  ignoreExpiry = false → now = 0 → ∀ i ∈ c.map.get key, 0 ≤ c.expiresAt i

instance (c : Cache K V) (key : K) (ignoreExpiry : Bool) (now : ℚ) :
    Decidable (ReadOk c key ignoreExpiry now) :=
  inferInstanceAs (Decidable (_ → _ → _))

theorem ReadOk.expired {ign : Bool} (h : ReadOk c k ign now) (hi : c.map.get k = some i) :
    (ign = false ∧ now ≠ 0 ∧ expiredAt c i now) ↔ (ign = false ∧ expiredAt c i now) := by
  refine ⟨fun hc => ⟨hc.1, hc.2.2⟩, fun hc => ⟨hc.1, fun h0 => ?_, hc.2⟩⟩
  have hpos := h hc.1 h0 i hi
  have hexp := hc.2
  simp only [expiredAt, h0, Bool.and_eq_true, decide_eq_true_eq] at hexp
  exact hexp.1 (le_antisymm hexp.2 hpos)

namespace Refines

protected theorem countMiss {count : Bool} (h : Refines c m xs) : Refines (countMiss c count) m xs := by
  cases count
  · exact h
  · exact h.congr rfl rfl rfl rfl

protected theorem countHit (h : Refines c m xs) : Refines (countHit c) m xs := h.congr rfl rfl rfl rfl

variable [DecidableEq K]

variable {maxScan : Option ℚ} {ttl : Option Ttl} {ign : Bool} {w x : ℚ} {v : V} {n : ℕ}
variable {weight : Option Weight}

/-- A lookup finds the entry the model finds and changes nothing, or neither finds
one. -/
protected theorem fetchValidNode (count : Bool) (h : Refines c m xs) (hok : ReadOk c k ign now) :
    (∃ c' m' xs', fetchValidNode c k ign count now = (c', none) ∧
      m.readUnless k ign now = (m', none) ∧ Refines c' m' xs') ∨
    ∃ i e l r les res, fetchValidNode c k ign count now = (c, some i) ∧
      m.readUnless k ign now = (m, some e) ∧ e.key = k ∧ c.map.get k = some i ∧
      (ign = false → e.expired now = false) ∧ Here c m xs i e l r les res := by
  have hlookup : lookup c k = c.map.get k := by
    simp only [lookup, h.plain.policy]
  rcases h.lookup k with ⟨hget, hfind⟩ | ⟨i, e, l, r, les, res, hget, hfind, hek, hat⟩
  · refine Or.inl ⟨countMiss c count, m, xs, ?_, ?_, h.countMiss⟩
    · simp only [fetchValidNode, hlookup, hget]
    · cases ign <;> simp [Recency.readUnless, Recency.read, hfind]
  · have hexp : expiredAt c i now = e.expired now := expiredAt_eq hat.entry
    have hfetch : fetchValidNode c k ign count now =
        if ign = false ∧ e.expired now then
          (countMiss (PowerCache.removeExpiredNode c i) count, none)
        else (c, some i) := by
      simp only [fetchValidNode, hlookup, hget, h.plain.policy, reduceCtorEq, false_and,
        if_false]
      exact if_congr ((hok.expired hget).trans (by rw [hexp])) rfl rfl
    have hread : m.readUnless k ign now =
        if ign = false ∧ e.expired now then (m.remove k, none) else (m, some e) := by
      cases ign <;> simp [Recency.readUnless, Recency.read, hfind]
    rw [hfetch, hread]
    by_cases hc : ign = false ∧ e.expired now
    · rw [if_pos hc, if_pos hc]
      exact Or.inl ⟨_, _, l ++ r, rfl, rfl, hek ▸ (h.removeExpiredNode hat).countMiss⟩
    · rw [if_neg hc, if_neg hc]
      refine Or.inr ⟨i, e, l, r, les, res, rfl, rfl, hek, hget, fun hign => ?_, hat⟩
      simpa [hign] using hc

protected theorem get (h : Refines c m xs) (hok : ReadOk c k false now) :
    (∃ xs', Refines (get c k now).1 (m.get k now).1 xs') ∧
      (get c k now).2 = (m.get k now).2 := by
  have hread : m.readUnless k false now = m.read k now := rfl
  rcases h.fetchValidNode true hok with
    ⟨c', m', xs', hc, hm, h'⟩ | ⟨i, e, l, r, les, res, hc, hm, -, -, -, hat⟩
  · rw [hread] at hm
    simp only [get, Recency.get, hc, hm, and_true]
    exact ⟨xs', h'⟩
  · rw [hread] at hm
    have h' := (h.moveToTail hat).countHit
    simp only [get, Recency.get, hc, hm, countKey_plain h'.plain.sketch]
    refine ⟨⟨_, h'⟩, ?_⟩
    have hf : (moveToTail c i).toFields = c.toFields := (moveToTail_frame h.plain).2.1
    show (moveToTail c i).value i = some e.value
    rw [hf]
    exact (entry_eq_some.mp hat.entry).2.1

protected theorem peek (h : Refines c m xs) (hok : ReadOk c k false now) :
    (∃ xs', Refines (peek c k now).1 (m.read k now).1 xs') ∧
      (peek c k now).2 = (m.read k now).2.map Entry.value := by
  have hread : m.readUnless k false now = m.read k now := rfl
  rcases h.fetchValidNode false hok with
    ⟨c', m', xs', hc, hm, h'⟩ | ⟨i, e, l, r, les, res, hc, hm, -, -, -, hat⟩
  · rw [hread] at hm
    simp only [peek, hc, hm]
    exact ⟨⟨xs', h'⟩, rfl⟩
  · rw [hread] at hm
    simp only [peek, hc, hm]
    exact ⟨⟨xs, h⟩, (entry_eq_some.mp hat.entry).2.1⟩

protected theorem has (h : Refines c m xs) (hok : ReadOk c k ign now) :
    (∃ xs', Refines (has c k ign now).1 (m.readUnless k ign now).1 xs') ∧
      (has c k ign now).2 = (m.readUnless k ign now).2.isSome := by
  rcases h.fetchValidNode false hok with
    ⟨c', m', xs', hc, hm, h'⟩ | ⟨i, e, l, r, les, res, hc, hm, -, -, -, hat⟩
  · simp only [has, hc, hm]
    exact ⟨⟨xs', h'⟩, rfl⟩
  · simp only [has, hc, hm]
    exact ⟨⟨xs, h⟩, rfl⟩

protected theorem getManyOne {acc : Cache K V × List (K × Option V)}
    {macc : Recency K V × List (K × Option V)} {q : K × ℚ} (h : Refines acc.1 macc.1 xs)
    (hfound : acc.2 = macc.2) (hok : ReadOk acc.1 q.1 ign q.2) :
    (∃ xs', Refines (getManyOne ign acc q).1 (Recency.getManyOne ign macc q).1 xs') ∧
      (getManyOne ign acc q).2 = (Recency.getManyOne ign macc q).2 := by
  rcases h.fetchValidNode true hok with
    ⟨c', m', xs', hc, hm, h'⟩ | ⟨i, e, l, r, les, res, hc, hm, -, -, -, hat⟩
  · simp only [getManyOne, Recency.getManyOne, hc, hm]
    exact ⟨⟨xs', h'⟩, hfound⟩
  · have hf : (moveToTail acc.1 i).toFields = acc.1.toFields :=
      (moveToTail_frame h.plain).2.1
    have hvalue : (countHit (moveToTail acc.1 i)).value i = some e.value := by
      show (moveToTail acc.1 i).value i = some e.value
      rw [hf]
      exact (entry_eq_some.mp hat.entry).2.1
    simp only [getManyOne, Recency.getManyOne, hc, hm, hvalue, hfound, and_true]
    exact ⟨_, (h.moveToTail hat).countHit⟩

theorem getMany {keys : List (K × ℚ)} {acc : Cache K V × List (K × Option V)}
    {macc : Recency K V × List (K × Option V)} (h : Refines acc.1 macc.1 xs)
    (hfound : acc.2 = macc.2) (hok : Meets (getManyOne ign)
      (fun acc q => ReadOk acc.1 q.1 ign q.2) acc keys) :
    (∃ xs', Refines (keys.foldl (getManyOne ign) acc).1
      (keys.foldl (Recency.getManyOne ign) macc).1 xs') ∧
      (keys.foldl (getManyOne ign) acc).2 =
        (keys.foldl (Recency.getManyOne ign) macc).2 := by
  induction keys generalizing acc macc xs with
  | nil => exact ⟨⟨xs, h⟩, hfound⟩
  | cons q keys ih =>
    obtain ⟨⟨xs', hone⟩, hfound'⟩ := h.getManyOne hfound hok.1
    exact ih hone hfound' hok.2

/-! ## Capacity -/

omit [DecidableEq K] in
protected theorem overLimit (h : Refines c m xs) : overLimit c c.map.size = m.overLimit := by
  rw [overLimit, Recency.overLimit, h.size_eq, h.totalWeight_eq, ← h.config]

protected theorem evictNode (h : Refines c m (i :: r)) : Refines (evictNode c i) m.dropOldest r := by
  obtain ⟨e, les, res, hat⟩ := h.here (l := []) rfl
  have hles : les = [] := by simpa using hat.before.symm
  subst hles
  have hdrop : m.dropOldest = m.remove e.key := by
    simp [Recency.dropOldest, hat.entries]
  rw [hdrop]
  exact h.dropNode "evicted" hat fun _ => rfl

theorem dropOldest_length (h : Refines c m (i :: r)) :
    m.entries.length = m.dropOldest.entries.length + 1 := by
  rw [← h.length_eq, ← h.evictNode.length_eq, List.length_cons]

protected theorem evictLoop {turns : ℕ} (h : Refines c m xs) (hturns : xs.length ≤ turns) :
    ∃ xs', Refines (evictLoop turns c) (m.shrink m.entries.length) xs' := by
  induction turns generalizing c m xs with
  | zero =>
    have hxs := List.length_eq_zero_iff.mp (Nat.le_zero.mp hturns)
    rw [← h.length_eq, hxs]
    exact ⟨xs, h⟩
  | succ turns ih =>
    simp only [evictLoop, h.overLimit, nextVictim_plain h.plain.missCost, h.rep.victim]
    cases xs with
    | nil =>
      rw [← h.length_eq]
      exact ⟨[], by cases m.overLimit <;> exact h⟩
    | cons i r =>
      rw [h.dropOldest_length, Recency.shrink]
      cases m.overLimit with
      | false => exact ⟨_, h⟩
      | true => exact ih h.evictNode (Nat.le_of_succ_le_succ hturns)

omit [DecidableEq K] in
theorem length_le (h : Refines c m xs) : xs.length ≤ c.nextNode := by
  have hsub : xs ⊆ List.range c.nextNode := by
    intro j hj
    exact List.mem_range.mpr (h.rep.shape.bound j (List.mem_append_left _ hj))
  simpa using List.Nodup.length_le_of_subset h.linked.nodup hsub

protected theorem evictIfNeeded (h : Refines c m xs) :
    ∃ xs', Refines (evictIfNeeded c) m.evictIfNeeded xs' := by
  obtain ⟨xs', h'⟩ := h.evictLoop h.length_le
  refine ⟨xs', ?_⟩
  simp only [evictIfNeeded, h.plain.policy, h'.rep.settleCandidate]
  exact h'

protected theorem evictCount (h : Refines c m xs) :
    (∃ xs', Refines (evictCount n c).1 (Recency.dropOldest^[n] m) xs') ∧
      (evictCount n c).2 = min n m.entries.length := by
  induction n generalizing c m xs with
  | zero => exact ⟨⟨xs, h⟩, (Nat.zero_min _).symm⟩
  | succ n ih =>
    rw [Function.iterate_succ_apply, evictCount, h.rep.victim]
    cases xs with
    | nil =>
      have hm : m.entries = [] := by simpa using h.length_eq.symm
      have hdrop : m.dropOldest = m := by simp [Recency.dropOldest, hm]
      have hfix : Recency.dropOldest^[n] m = m := Function.iterate_fixed hdrop n
      rw [hdrop, hfix, hm]
      exact ⟨⟨[], h⟩, rfl⟩
    | cons i r =>
      obtain ⟨hrest, hcount⟩ := ih h.evictNode
      refine ⟨hrest, ?_⟩
      show (evictCount n (evictNode c i)).2 + 1 = _
      rw [hcount, h.dropOldest_length, Nat.succ_min_succ]

/-! ## Writes -/

def timeOf (expiresAt : ℚ) : Option ℚ := if expiresAt = 0 then none else some expiresAt

/-- What the two sides make of one ttl: the same, unless a finite ttl comes to 0. -/
theorem expiry_cases (ttl : Ttl) (now : ℚ) :
    (∃ err, expiresAtOf ttl now = .error err ∧ Recency.expiry ttl now = .error err) ∨
    ∃ x o, expiresAtOf ttl now = .ok x ∧ Recency.expiry ttl now = .ok o ∧
      (o = timeOf x ∨ ∃ t, ttl = .ms t ∧ now + t = 0) := by
  cases ttl with
  | never => exact Or.inr ⟨0, none, rfl, rfl, Or.inl rfl⟩
  | invalid => exact Or.inl ⟨ttlError, rfl, rfl⟩
  | ms t =>
    refine Or.inr ⟨now + t, some (now + t), rfl, rfl, ?_⟩
    by_cases h0 : now + t = 0
    · exact Or.inr ⟨t, rfl, h0⟩
    · exact Or.inl (if_neg h0).symm

protected theorem updateExisting (h : Refines c m xs)
    (hat : Here c m xs i e l r les res) :
    Refines (updateExisting c i v w x) (m.put ⟨e.key, v, w, timeOf x⟩) (l ++ r ++ [i]) := by
  obtain ⟨hkey, -, hweight, -⟩ := entry_eq_some.mp hat.entry
  refine h.use hat rfl rfl rfl ?_ rfl ?_ (by simp [hweight])
  · refine entry_eq_some.mpr ⟨hkey, update_self _ _ _, update_self _ _ _, ?_⟩
    simp [timeOf]
  · intro j hj
    refine ⟨?_, update_of_ne hj _ _⟩
    apply entry_congr
    · rfl
    · exact update_of_ne hj _ _
    · exact update_of_ne hj _ _
    · exact update_of_ne hj _ _

omit [DecidableEq K] in
theorem index_empty (h : Refines c m xs) (hget : c.map.get k = none) (q : Queue) :
    (c.toHeap.index q).get k = none := by
  cases q with
  | main => exact hget
  | small | ghost =>
    rw [Option.eq_none_iff_forall_ne_some]
    intro j hj
    have hmem := (((h.rep.shape.index _).get_iff k j).mp hj).1
    simp [onlyMain] at hmem

protected theorem insertNode (h : Refines c m xs) (hget : c.map.get k = none)
    (hfind : m.find k = none) : Refines (insertNode c k v w x) (m.put ⟨k, v, w, timeOf x⟩)
      (xs ++ [(takeNode c).2]) := by
  have hrep := h.rep.insertNode (v := v) (w := w) (e := x) (h.index_empty hget)
    (by simp [h.plain.policy])
  simp only [h.plain.policy, entryQueue, onlyMain_update] at hrep
  obtain ⟨hconfig, hfields, -⟩ := insertNode_frame (c := c) (k := k) (v := v) (w := w) (e := x)
  have hi : (takeNode c).2 ∉ xs :=
    h.rep.shape.takeNode.held_notMem List.mem_cons_self .main
  refine h.insert (e := ⟨k, v, w, timeOf x⟩) hfind hi hrep hconfig ?_ ?_
    insertNode_cleanupCursor
  · rw [hfields]
    refine entry_eq_some.mpr ⟨update_self _ _ _, update_self _ _ _,
      update_self _ _ _, ?_⟩
    simp [Fields.put, timeOf]
  · intro j hj
    rw [hfields]
    refine ⟨?_, update_of_ne hj _ _⟩
    apply entry_congr <;> exact update_of_ne hj _ _

omit [DecidableEq K] in
protected theorem countWeightError (v : V) (weight : Option Weight) (h : Refines c m xs) :
    Refines (countWeightError c v weight) m xs := by
  unfold countWeightError
  split
  · exact h.congr rfl rfl rfl rfl
  · exact h

omit [DecidableEq K] in
protected theorem oversized (h : Refines c m xs) : oversized c w = m.oversized w := by
  rw [oversized, Recency.oversized, ← h.config]

/-- One entry of a `setMany`; a `set` but for the eviction at its end. -/
protected theorem setManyOne {o : Option ℚ} (h : Refines c m xs)
    (ho : o = timeOf x ∨ oversized c (computeWeight c.weightFn v weight)) :
    ∃ xs', Refines (setManyOne x weight c (k, v)) (m.setManyOne o weight (k, v)) xs' := by
  have hcount := h.countWeightError v weight
  have hweight : c.weightFn = m.config.weightFn := by rw [h.config]
  rw [h.oversized, hweight] at ho
  simp only [setManyOne, Recency.setManyOne, hcount.oversized, hweight]
  cases hover : m.oversized (computeWeight m.config.weightFn v weight) with
  | true => exact ⟨xs, hcount.congr rfl rfl rfl rfl⟩
  | false =>
    obtain rfl : o = timeOf x := by simpa [hover] using ho
    rcases hcount.lookup k with ⟨hget, hfind⟩ | ⟨i, e, l, r, les, res, hget, -, hek, hat⟩
    · have h' := hcount.insertNode (v := v) (w := computeWeight m.config.weightFn v weight)
        (x := x) hget hfind
      simp only [hget, insertNew_plain hcount.plain.sketch, countKey_plain h'.plain.sketch]
      exact ⟨_, h'⟩
    · have h' := hcount.updateExisting (v := v) (w := computeWeight m.config.weightFn v weight)
        (x := x) hat
      simp only [hget, countKey_plain h'.plain.sketch]
      rw [← hek]
      exact ⟨_, h'⟩

theorem setManyLoop {entries : List (K × V)} {o : Option ℚ}
    (h : Refines c m xs) (ho : ∀ p ∈ entries, o = timeOf x ∨
      oversized c (computeWeight c.weightFn p.2 weight)) :
    ∃ xs', Refines (entries.foldl (setManyOne x weight) c)
      (entries.foldl (Recency.setManyOne o weight) m) xs' := by
  induction entries generalizing c m xs with
  | nil => exact ⟨xs, h⟩
  | cons p entries ih =>
    obtain ⟨xs', h'⟩ := h.setManyOne (k := p.1) (ho p List.mem_cons_self)
    have hconfig : (setManyOne x weight c p).toConfig = c.toConfig :=
      h'.config.trans (Recency.setManyOne_config.trans h.config.symm)
    refine ih h' fun p' hp' => ?_
    simp only [oversized, hconfig]
    exact ho p' (List.mem_cons_of_mem _ hp')

def Sim (r : Cache K V × Outcome K V) (s : Recency K V × Outcome K V) : Prop :=
  (∃ xs, Refines r.1 s.1 xs) ∧ r.2 = s.2

section
variable (h : Refines c m xs)
include h

protected theorem set
    (hok : ∀ t, ttl.getD c.defaultTTL = .ms t → now + t = 0 →
      oversized c (computeWeight c.weightFn v weight)) :
    Sim (step c (.set k v ttl weight now)) (m.step (.set k v ttl weight now)) := by
  have hweight : m.config.weightFn = c.weightFn := by rw [← h.config]
  have httl : m.config.defaultTTL = c.defaultTTL := by rw [← h.config]
  simp only [step, Recency.step, set, Recency.set, httl, hweight, ← h.oversized]
  rcases expiry_cases (ttl.getD c.defaultTTL) now with ⟨err, hx, ho⟩ | ⟨x, o, hx, ho, hxo⟩
  · rw [hx, ho]
    exact ⟨⟨xs, h⟩, rfl⟩
  · have hxo' : o = timeOf x ∨ oversized c (computeWeight c.weightFn v weight) :=
      hxo.imp_right fun ⟨t, ht, h0⟩ => hok t ht h0
    obtain ⟨xs', h'⟩ := h.setManyOne (k := k) hxo'
    rw [hx, ho]
    simp only [store_list (by simp [h.plain.policy]) h.plain.sketch]
    cases hover : oversized c (computeWeight c.weightFn v weight) with
    | true =>
      have hm : m.setManyOne o weight (k, v) = m := by
        simp only [Recency.setManyOne, hweight, ← h.oversized, hover, if_true]
      rw [hm] at h'
      exact ⟨⟨xs', h'⟩, rfl⟩
    | false =>
      obtain ⟨xs'', h''⟩ := h'.evictIfNeeded
      exact ⟨⟨xs'', h''⟩, rfl⟩

protected theorem setMany {entries : List (K × V)}
    (hok : ∀ t, ttl.getD .never = .ms t → now + t = 0 →
      ∀ p ∈ entries, oversized c (computeWeight c.weightFn p.2 weight)) :
    Sim (step c (.setMany entries ttl weight now)) (m.step (.setMany entries ttl weight now)) := by
  simp only [step, Recency.step, setMany, Recency.setMany]
  rcases expiry_cases (ttl.getD .never) now with ⟨err, hx, ho⟩ | ⟨x, o, hx, ho, hxo⟩
  · rw [hx, ho]
    exact ⟨⟨xs, h⟩, rfl⟩
  · have hxo' : ∀ p ∈ entries, o = timeOf x ∨
        oversized c (computeWeight c.weightFn p.2 weight) :=
      fun p hp => hxo.imp_right fun ⟨t, ht, h0⟩ => hok t ht h0 p hp
    obtain ⟨xs', h'⟩ := h.setManyLoop hxo'
    rw [hx, ho]
    obtain ⟨xs'', h''⟩ := h'.evictIfNeeded
    exact ⟨⟨xs'', h''⟩, rfl⟩

protected theorem touch (hread : ReadOk c k false now)
    (hok : ∀ t, ttl = some (.ms t) → now + t = 0 →
      ∀ i ∈ c.map.get k, expiredAt c i now) :
    Sim (step c (.touch k ttl now)) (m.step (.touch k ttl now)) := by
  have hm' : m.readUnless k false now = m.read k now := rfl
  simp only [step, Recency.step, touch, Recency.touch]
  rcases h.fetchValidNode false hread with
    ⟨c', m', xs', hc, hm, h'⟩ | ⟨i, e, l, r, les, res, hc, hm, -, hget, hlive, hat⟩
  · rw [hm'] at hm
    simp only [hc, hm]
    exact ⟨⟨xs', h'⟩, rfl⟩
  · rw [hm'] at hm
    simp only [hc, hm]
    cases ttl with
    | none => exact ⟨⟨_, h.moveToTail hat⟩, rfl⟩
    | some ttl =>
      rcases expiry_cases ttl now with ⟨err, hx, ho⟩ | ⟨x, o, hx, ho, hxo⟩
      · simp only [hx, ho]
        exact ⟨⟨xs, h⟩, rfl⟩
      · obtain rfl : o = timeOf x := by
          refine hxo.resolve_right fun hzero => ?_
          obtain ⟨t, ht, h0⟩ := hzero
          have hexp := hok t (congrArg some ht) h0 i hget
          rw [expiredAt_eq hat.entry, hlive rfl] at hexp
          exact Bool.noConfusion hexp
        obtain ⟨hkey, hvalue, hweight, -⟩ := entry_eq_some.mp hat.entry
        simp only [hx, ho]
        refine ⟨⟨_, h.use hat rfl rfl rfl ?_ rfl ?_
          (by ring)⟩, rfl⟩
        · refine entry_eq_some.mpr ⟨hkey, hvalue, hweight, ?_⟩
          simp [timeOf]
        · intro j hj
          refine ⟨?_, rfl⟩
          apply entry_congr
          · rfl
          · rfl
          · rfl
          · exact update_of_ne hj _ _

protected theorem abortInflight : Refines (abortInflight c (some k)) m xs :=
  h.congr abortInflight_toConfig abortInflight_toFields abortInflight_toHeap
    abortInflight_currentWeight

protected theorem delete : Sim (step c (.delete k)) (m.step (.delete k)) := by
  have habort := h.abortInflight (k := k)
  have hlookup : lookup (abortInflight c (some k)) k = c.map.get k := by
    simp only [lookup, habort.plain.policy]
    exact congrArg (fun H : Heap K => H.map.get k) abortInflight_toHeap
  simp only [step, Recency.step, delete, Recency.delete, hlookup]
  rcases h.lookup k with ⟨hget, hfind⟩ | ⟨i, e, l, r, les, res, hget, hfind, hek, hat⟩
  · simp only [hget, hfind]
    exact ⟨⟨xs, habort⟩, rfl⟩
  · subst hek
    simp only [hget, hfind]
    obtain ⟨e', les', res', hat'⟩ := habort.here hat.nodes
    obtain rfl : e = e' := by
      have he := hat'.entry
      rw [abortInflight_toFields, hat.entry] at he
      exact Option.some.inj he
    exact ⟨⟨l ++ r, habort.unlinked hat'⟩, rfl⟩

protected theorem evict {n : ℤ} : Sim (step c (.evict n)) (m.step (.evict n)) := by
  simp only [step, Recency.step, evict, Recency.evict]
  by_cases hn : n < 0
  · simp only [hn, if_true]
    exact ⟨⟨xs, h⟩, rfl⟩
  · obtain ⟨⟨xs', h'⟩, hcount⟩ := h.evictCount (n := n.toNat)
    simp only [hn, if_false, hcount]
    refine ⟨⟨xs', ?_⟩, rfl⟩
    show Refines (settleCandidate (evictCount n.toNat c).1) _ _
    rw [h'.rep.settleCandidate]
    exact h'

/-! ## Sweeps and walks -/

protected theorem invalidateOne (hat : Here c m xs i e l r les res) :
    ∃ c', invalidateOne (c, n) i = (c', n + 1) ∧ c'.toFields = c.toFields.clear i ∧
      Refines c' (m.remove e.key) (l ++ r) := by
  have hkey := (entry_eq_some.mp hat.entry).1
  have hget : (c.key i).bind c.map.get = some i := by
    rw [hkey, Option.bind_some]
    exact h.indexes.get_some (by simp [hat.nodes]) hkey
  have hadv : false = true → l = [] := fun hc => nomatch hc
  refine ⟨_, ?_, ?_, h.dropNode "invalidated" hat hadv⟩
  · simp only [invalidateOne, hget, if_true]
  · exact congrArg (Fields.clear · i) (unlinkNode_toFields.trans abortInflight_toFields)

theorem invalidateLoop {doomed : List ℕ} {ds : List (Entry K V)}
    (hsub : doomed.Sublist xs) (hds : doomed.map c.toFields.entry = ds.map some) :
    ∃ c' xs', doomed.foldl invalidateOne (c, n) = (c', n + ds.length) ∧
      Refines c' (ds.foldl (fun m e => m.remove e.key) m) xs' := by
  induction doomed generalizing c m xs ds n with
  | nil =>
    have hnil : ds = [] := by simpa using hds.symm
    subst hnil
    exact ⟨c, xs, rfl, h⟩
  | cons i doomed ih =>
    obtain ⟨e, ds, rfl, he, hrest⟩ := List.map_eq_cons_iff.mp hds.symm
    obtain ⟨l, r, hxs⟩ := List.append_of_mem (hsub.subset List.mem_cons_self)
    obtain ⟨e', les, res, hat⟩ := h.here hxs
    obtain rfl : e = e' := Option.some.inj (he.trans hat.entry)
    obtain ⟨c₁, hone, hfields, h₁⟩ := h.invalidateOne (n := n) hat
    have hnd := hsub.nodup h.linked.nodup
    have hi := (List.nodup_cons.mp hnd).1
    have hsub' : doomed.Sublist (l ++ r) := by
      have herase := hsub.erase i
      have hil : i ∉ l := fun hl => by
        have hnd' := List.nodup_middle.mp (hxs ▸ h.linked.nodup)
        exact hnd'.notMem (List.mem_append_left r hl)
      rwa [List.erase_cons_head, hxs, List.erase_append_right _ hil, List.erase_cons_head] at herase
    have hds' : doomed.map c₁.toFields.entry = ds.map some := by
      rw [hrest, hfields]
      exact List.map_congr_left fun j hj => entry_clear fun heq => hi (heq ▸ hj)
    obtain ⟨c', xs', hloop, h'⟩ := ih (n := n + 1) h₁ hsub' hds'
    refine ⟨c', xs', ?_, h'⟩
    rw [List.foldl_cons, hone, hloop, List.length_cons]
    congr 1
    omega

protected theorem invalidate {p : Option K → Option V → Bool} :
    Sim (step c (.invalidate p)) (m.step (.invalidate p)) := by
  have hwalk : walk c.links.next c.nextNode c.main.head = xs := h.linked.walk_next h.length_le
  have hdoomed : (xs.filter fun i => p (c.key i) (c.value i)).map c.toFields.entry =
      (m.entries.filter fun e => p (some e.key) (some e.value)).map some := by
    refine filter_of_entries (fun i e he => ?_) h.entries
    obtain ⟨hkey, hvalue, -⟩ := entry_eq_some.mp he
    rw [hkey, hvalue]
  obtain ⟨c', xs', hloop, h'⟩ := h.invalidateLoop (n := 0) List.filter_sublist hdoomed
  have hnodes : doomedNodes c p = xs.filter fun i => p (c.key i) (c.value i) := by
    simp only [doomedNodes, h.plain.policy, List.flatMap_cons, List.flatMap_nil, List.append_nil, hwalk]
  have hcode : invalidate c p =
      (c', (m.entries.filter fun e => p (some e.key) (some e.value)).length) := by
    simp only [invalidate, hnodes, hloop, h'.rep.realignCandidate, Nat.zero_add]
  simp only [step, Recency.step, hcode]
  exact ⟨⟨xs', h'⟩, rfl⟩

end

/-- Between two nodes of the list: the nodes `r` from here on hold the entries `res`. -/
structure From (c : Cache K V) (m : Recency K V) (xs l r : List ℕ)
    (les res : List (Entry K V)) : Prop where
  nodes : xs = l ++ r
  entries : m.entries = les ++ res
  before : l.map c.toFields.entry = les.map some
  behind : r.map c.toFields.entry = res.map some

/-- How many of `n` entries a sweep still looks at, after `scanned`. -/
def toScan (maxScan : Option ℚ) (scanned n : ℕ) : ℕ := maxScan.elim n fun b => min n (⌈b⌉₊ - scanned)

theorem toScan_zero {scanned : ℕ} : toScan maxScan scanned 0 = 0 := by
  cases maxScan <;> simp [toScan]

theorem toScan_succ {scanned : ℕ} :
    toScan maxScan scanned (n + 1) =
      if maxScan.all fun b => decide ((scanned : ℚ) < b) then toScan maxScan (scanned + 1) n + 1
      else 0 := by
  cases maxScan with
  | none => rfl
  | some b =>
    have hceil : ((scanned : ℚ) < b) ↔ scanned < ⌈b⌉₊ := Nat.lt_ceil.symm
    simp only [toScan, Option.elim, Option.all_some, decide_eq_true_eq, hceil]
    split <;> omega

protected theorem cleanupLoop (now : ℚ) (maxScan : Option ℚ) {turns : ℕ} (scanned : ℕ) (h : Refines c m xs)
    (hfrom : From c m xs l r les res) (hturns : r.length < turns) :
    ∃ c' cur xs' l' r', cleanupLoop now maxScan turns scanned r.head? c =
        (c', r'.head?, scanned + toScan maxScan scanned r.length) ∧
      Refines c' { m with
        entries := les ++ ((res.take (toScan maxScan scanned r.length)).filter
          (fun e => !e.expired now) ++ res.drop (toScan maxScan scanned r.length))
        cursor := cur } xs' ∧
      xs' = l' ++ r' ∧
      r'.map c'.toFields.entry = (res.drop (toScan maxScan scanned r.length)).map some := by
  induction turns generalizing c m xs l r les res scanned with
  | zero => omega
  | succ turns ih =>
    cases r with
    | nil =>
      have hres : res = [] := by simpa using hfrom.behind.symm
      subst hres
      refine ⟨c, m.cursor, xs, l, [], ?_, ?_, hfrom.nodes, ?_⟩
      · rw [List.length_nil, toScan_zero]
        rfl
      · rw [List.take_nil, List.drop_nil, List.filter_nil, List.append_nil]
        rw [List.append_nil, ← List.append_nil les, ← hfrom.entries]
        exact h
      · simp
    | cons i r =>
      obtain ⟨e, res, rfl, he, hr⟩ := List.map_eq_cons_iff.mp hfrom.behind.symm
      obtain ⟨e', les', res', hat⟩ := h.here hfrom.nodes
      obtain rfl : e = e' := Option.some.inj (he.trans hat.entry)
      obtain rfl : les = les' := by
        have hle := hat.before
        rw [hfrom.before] at hle
        exact (List.map_injective_iff.mpr (Option.some_injective _)) hle
      obtain rfl : res = res' := by
        have hre := hat.behind
        rw [← hr] at hre
        exact (List.map_injective_iff.mpr (Option.some_injective _)) hre
      have hnext : c.links.next i = r.head? := (h.linked.links l i r hat.nodes).2
      have hturns' : r.length < turns := by simpa using hturns
      rw [List.head?_cons, cleanupLoop, List.length_cons, toScan_succ]
      cases hscan : maxScan.all fun b => decide ((scanned : ℚ) < b) with
      | false => exact ⟨c, m.cursor, xs, l, i :: r, rfl, by simpa [← hat.entries] using h,
          hat.nodes, by simpa using hfrom.behind⟩
      | true =>
        simp only [if_true, hnext, expiredAt_eq hat.entry, List.take_succ_cons,
          List.drop_succ_cons, List.filter_cons]
        cases hexp : e.expired now with
        | true =>
          have hnd := List.nodup_middle.mp (hat.nodes ▸ h.linked.nodup)
          have hold : ∀ j ∈ l ++ r,
              (PowerCache.removeExpiredNode c i).toFields.entry j = c.toFields.entry j := by
            intro j hj
            have hfields : (PowerCache.removeExpiredNode c i).toFields = c.toFields.clear i :=
              congrArg (Fields.clear · i) unlinkNode_toFields
            rw [hfields]
            exact entry_clear fun heq => hnd.notMem (heq ▸ hj)
          have hfrom' : From (PowerCache.removeExpiredNode c i) (m.remove e.key) (l ++ r) l r
              les res := by
            refine ⟨rfl, ?_, ?_, ?_⟩
            · rw [Recency.remove_split hat.entries hat.apart]
            · rw [List.map_congr_left fun j hj => hold j (List.mem_append_left r hj)]
              exact hat.before
            · rw [List.map_congr_left fun j hj => hold j (List.mem_append_right l hj)]
              exact hat.behind
          obtain ⟨c', cur, xs', l', r', hloop, h', hxs', hr'⟩ :=
            ih (scanned + 1) (h.removeExpiredNode hat) hfrom' hturns'
          refine ⟨c', cur, xs', l', r', ?_, h', hxs', hr'⟩
          rw [if_pos rfl, hloop]
          congr 2
          omega
        | false =>
          have hfrom' : From c m xs (l ++ [i]) r (les ++ [e]) res := by
            refine ⟨by simp [hat.nodes], by simp [hat.entries], ?_, hat.behind⟩
            rw [List.map_append, List.map_append, hat.before]
            simp [hat.entry]
          obtain ⟨c', cur, xs', l', r', hloop, h', hxs', hr'⟩ :=
            ih (scanned + 1) h hfrom' hturns'
          refine ⟨c', cur, xs', l', r', ?_, ?_, hxs', hr'⟩
          · rw [if_neg (by simp), hloop]
            congr 2
            omega
          · simpa using h'

omit [DecidableEq K] in
theorem setCursor (cursor : Option ℕ) {cur : Option K} (h : Refines c m xs)
    (hmem : ∀ i, cursor = some i → i ∈ xs) (hcur : cursor.bind c.key = cur) :
    Refines { c with cleanupCursor := cursor, cleanupCursorValid := cursor.isSome }
      { m with cursor := cur } xs :=
  ⟨h.plain, h.config, ⟨⟨h.rep.shape.setCursor hmem, h.rep.weight, h.rep.ghostWeight⟩,
    h.rep.candidate⟩, h.entries, hcur⟩

/-- Where a sweep starts. -/
theorem atCursor (h : Refines c m xs) : ∃ l r,
    (if c.cleanupCursorValid then c.cleanupCursor <|> c.main.head else c.main.head) = r.head? ∧
      From c m xs l r m.atCursor.1 m.atCursor.2 := by
  have hvalid := h.rep.shape.cursorValid
  cases hc : c.cleanupCursor with
  | none =>
    have hm : m.cursor = none := by rw [← h.cursor, hc]; rfl
    refine ⟨[], xs, ?_, ?_⟩
    · simp only [hvalid, hc, Option.isSome_none, Bool.false_eq_true, if_false]
      exact h.linked.head_eq
    · simp only [Recency.atCursor, hm]
      exact ⟨rfl, rfl, rfl, h.entries⟩
  | some i =>
    obtain ⟨l, r, hxs⟩ := List.append_of_mem (h.rep.shape.cursor i hc)
    obtain ⟨e, les, res, hat⟩ := h.here hxs
    have hm : m.cursor = some e.key := by
      rw [← h.cursor, hc]
      exact (entry_eq_some.mp hat.entry).1
    refine ⟨l, i :: r, ?_, ?_⟩
    · simp only [hvalid, hc, Option.isSome_some, if_true]
      rfl
    · have hspan : m.atCursor = (les, e :: res) := by
        have htake : (les ++ e :: res).takeWhile (fun e' => decide (e'.key ≠ e.key)) = les := by
          rw [List.takeWhile_append_of_pos fun e' he' =>
            decide_eq_true (hat.apart e' (List.mem_append_left res he'))]
          simp
        simp only [Recency.atCursor, hm, List.span_eq_takeWhile_dropWhile, hat.entries, htake,
          Recency.dropWhile_split hat.apart]
      rw [hspan]
      refine ⟨hat.nodes, hat.entries, hat.before, ?_⟩
      rw [List.map_cons, List.map_cons, hat.entry, hat.behind]

omit [DecidableEq K] in
theorem head_key {f : Fields K V}
    (h : r.map f.entry = res.map some) : r.head?.bind f.key = res.head?.map Entry.key := by
  cases r with
  | nil =>
    have hres : res = [] := by simpa using h.symm
    rw [hres]
    rfl
  | cons i r =>
    obtain ⟨e, res, rfl, he, -⟩ := List.map_eq_cons_iff.mp h.symm
    exact (entry_eq_some.mp he.symm).1

section
variable (h : Refines c m xs)
include h

theorem cleanupExpiredUpTo :
    Sim (step c (.cleanupExpiredUpTo maxScan now))
      (m.step (.cleanupExpiredUpTo maxScan now)) := by
  obtain ⟨l, r, hstart, hfrom⟩ := h.atCursor
  have hlen : r.length = m.atCursor.2.length := by
    simpa using congrArg List.length hfrom.behind
  have hturns : r.length < c.nextNode + 1 := by
    have hle := h.length_le
    rw [hfrom.nodes, List.length_append] at hle
    omega
  obtain ⟨c', cur, xs', l', r', hloop, h', hxs', hr'⟩ :=
    h.cleanupLoop now maxScan 0 hfrom hturns
  have hscan : Recency.scanned maxScan m.atCursor.2.length = toScan maxScan 0 r.length := by
    rw [hlen]
    rfl
  simp only [step, Recency.step, PowerCache.cleanupExpiredUpTo, Recency.cleanupExpiredUpTo,
    hstart, hloop, hscan, Nat.zero_add]
  refine ⟨⟨xs', ?_⟩, rfl⟩
  have hhead : c'.main.head = xs'.head? := h'.linked.head_eq
  rw [hhead]
  refine h'.setCursor _ (fun i hi => ?_) ?_
  · cases r' with
    | nil => exact List.mem_of_head? hi
    | cons j r' =>
      obtain rfl : j = i := by simpa using hi
      simp [hxs']
  · have hkeys := head_key h'.entries
    have hkeys' := head_key hr'
    cases r' with
    | nil =>
      have hnil := congrArg List.length hr'
      rw [List.length_map, List.length_map, List.length_nil] at hnil
      rw [List.length_eq_zero_iff.mp hnil.symm] at hkeys ⊢
      exact hkeys
    | cons j r' =>
      cases hdrop : m.atCursor.2.drop (toScan maxScan 0 r.length) with
      | nil => simp [hdrop] at hr'
      | cons e res =>
        rw [hdrop] at hkeys'
        exact hkeys'

theorem walks {order : Order} :
    Sim (step c (.entries order)) (m.step (.entries order)) := by
  have hpairs : (xs.map fun i => (c.key i, c.value i)) =
      m.entries.map fun e => (some e.key, some e.value) := by
    refine map_of_entries (fun i e he => ?_) h.entries
    obtain ⟨hkey, hvalue, -⟩ := entry_eq_some.mp he
    rw [hkey, hvalue]
  have hsize : xs.length ≤ c.map.size := h.indexes.size_eq.ge
  have hcode : PowerCache.entries c order = m.walk order := by
    cases order with
    | lru =>
      simp only [PowerCache.entries, h.plain.policy, Recency.walk, h.linked.walk_next hsize]
      exact hpairs
    | mru =>
      simp only [PowerCache.entries, h.plain.policy, Recency.walk, h.linked.walk_prev hsize, List.map_reverse]
      exact congrArg List.reverse hpairs
  simp only [step, Recency.step, hcode]
  exact ⟨⟨xs, h⟩, rfl⟩

protected theorem resize {maxEntries maxWeight : Option ℚ} :
    Sim (step c (.resize maxEntries maxWeight)) (m.step (.resize maxEntries maxWeight)) := by
  have hlimits : Refines { c with
      maxEntries := maxEntries.elim c.maxEntries fun n => some (max 0 n)
      maxWeight := maxWeight.elim c.maxWeight fun w => some (max 0 w) }
      { m with config := { m.config with
        maxEntries := maxEntries.elim m.config.maxEntries fun n => some (max 0 n)
        maxWeight := maxWeight.elim m.config.maxWeight fun w => some (max 0 w) } } xs := by
    refine ⟨⟨h.plain.policy, h.plain.missCost, h.plain.sketch, h.plain.windowSize⟩, ?_,
      ⟨⟨h.rep.shape, h.rep.weight, h.rep.ghostWeight⟩, h.rep.candidate⟩, h.entries, h.cursor⟩
    rw [h.config]
  obtain ⟨xs', h'⟩ := hlimits.evictIfNeeded
  have hhead := h'.linked.head_eq.trans h'.rep.candidate.symm
  have hcursor := h'.setCursor none (by simp) rfl
  simp only [step, Recency.step, resize, Recency.resize]
  rw [hhead]
  exact ⟨⟨xs', hcursor⟩, rfl⟩

/-! ## Fetches -/

protected theorem refreshStaleEntry : Refines (refreshStaleEntry c k) m xs := by
  unfold refreshStaleEntry
  split
  · exact h
  · split <;> exact h.congr rfl rfl rfl rfl

theorem fetch :
    Refines (if hasInflight c (some k) then c else addInflight (countMiss c true) k)
      m xs := by
  split
  · exact h
  · exact h.congr rfl rfl rfl rfl

protected theorem getOrSetAsync {swr : Option Bool} :
    Sim (step c (.getOrSetAsync k swr now)) (m.step (.getOrSetAsync k swr now)) := by
  refine ⟨?_, rfl⟩
  show ∃ xs, Refines (getOrSetAsync c k swr now) (m.getOrSetAsync k swr now) xs
  rcases h.lookup k with ⟨hget, hfind⟩ | ⟨i, e, l, r, les, res, hget, hfind, hek, hat⟩
  · simp only [getOrSetAsync, Recency.getOrSetAsync, hget, hfind]
    exact ⟨xs, h.fetch⟩
  · subst hek
    have hallow : c.allowStale = m.config.allowStale := by rw [h.config]
    have hwindow : c.staleTtl = m.config.staleTtl := by rw [h.config]
    have hput := h.moveToTail hat
    simp only [getOrSetAsync, Recency.getOrSetAsync, hget, hfind,
      expiredAt_eq hat.entry]
    cases hexp : e.expired now with
    | false => exact ⟨_, hput.countHit⟩
    | true =>
      have hservable : staleServable c i now = m.config.staleTtl.all fun window =>
          e.expiresAt.all fun t => decide (now ≤ t + window) := by
        obtain ⟨-, -, -, htime⟩ := entry_eq_some.mp hat.entry
        rw [staleServable, hwindow, ← htime]
        by_cases h0 : c.expiresAt i = 0
        · rw [Entry.expired, ← htime] at hexp
          simp [h0] at hexp
        · simp [h0]
      simp only [hservable, hallow, if_true, Bool.true_and]
      cases hserve : (swr.getD m.config.allowStale && m.config.staleTtl.all fun window =>
          e.expiresAt.all fun t => decide (now ≤ t + window)) with
      | true =>
        refine ⟨l ++ r ++ [i], Refines.refreshStaleEntry ?_⟩
        exact hput.countHit.congr rfl rfl rfl rfl
      | false => exact ⟨_, (h.removeExpiredNode hat).fetch⟩

theorem finishFetch {abort : Bool} :
    Sim (step c (.finishFetch k abort)) (m.step (.finishFetch k abort)) := by
  refine ⟨⟨xs, ?_⟩, rfl⟩
  cases abort with
  | true => exact h.abortInflight.congr rfl rfl rfl rfl
  | false => exact h.congr rfl rfl rfl rfl

end

end Refines

end

end PerformanceHelpers.PowerCache
