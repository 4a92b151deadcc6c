import PerformanceHelpers.PowerCache.Cursor

/- Every call on a cache of one list, and runs of them.

   `CandidateOk` is the condition on a call: no node is taken out from under the
   eviction candidate. With it a call leaves the list and all that is kept beside it
   as they should be (`Ready`), and the limits hold after whatever makes the cache hold
   more. -/
namespace PerformanceHelpers.PowerCache

variable {K V : Type} [DecidableEq K] {c c' : Cache K V} {xs xs' l r : List ℕ}
  {ms ms' : List (Mark K)} {i : ℕ} {k : K} {m : Mark K} {v : V} {w x now : ℚ}

instance SweepKeeps.decidable (now : ℚ) (maxScan : Option ℚ) : ∀ (turns scanned : ℕ)
    (node : Option ℕ) (c : Cache K V), Decidable (SweepKeeps now maxScan turns scanned node c)
  | 0, _, _, _ => isTrue trivial
  | _ + 1, _, none, _ => isTrue trivial
  | turns + 1, scanned, some i, c =>
    have := SweepKeeps.decidable now maxScan turns (scanned + 1) (c.links.next i)
      (if expiredAt c i now then removeExpiredNode c i else c)
    inferInstanceAs (Decidable (if maxScan.all fun m => decide ((scanned : ℚ) < m) then
      (expiredAt c i now = true → Droppable c i) ∧
        SweepKeeps now maxScan turns (scanned + 1) (c.links.next i)
          (if expiredAt c i now then removeExpiredNode c i else c)
      else True))

def CandidateOk (c : Cache K V) : Event K V → Prop
  | .get key now | .peek key now | .touch key _ now => LookupKeeps c key false now
  | .has key ignoreExpiry now => LookupKeeps c key ignoreExpiry now
  | .getMany keys ignoreExpiry => Meets (getManyOne ignoreExpiry)
      (fun acc q => LookupKeeps acc.1 q.1 ignoreExpiry q.2) (c, []) keys
  | .delete key => ∀ i ∈ lookup c key, Droppable c i
  | .getOrSetAsync key swr now => ∀ i ∈ c.map.get key, expiredAt c i now →
      (swr.getD c.allowStale && staleServable c i now) = false → Droppable c i
  | .cleanupExpiredUpTo maxScan now => SweepKeeps now maxScan (c.nextNode + 1) 0 (sweepStart c) c
  | .set _ _ _ _ _ | .setMany _ _ _ _ | .evict _ | .invalidate _ | .finishFetch _ _ | .resize _ _
  | .entries _ => True

instance (c : Cache K V) : ∀ ev, Decidable (CandidateOk c ev)
  | .get key now | .peek key now | .touch key _ now =>
    inferInstanceAs (Decidable (LookupKeeps c key false now))
  | .has key ign now => inferInstanceAs (Decidable (LookupKeeps c key ign now))
  | .getMany keys ign => inferInstanceAs (Decidable (Meets (getManyOne ign)
      (fun acc q => LookupKeeps acc.1 q.1 ign q.2) (c, []) keys))
  | .delete key => inferInstanceAs (Decidable (∀ i ∈ lookup c key, _))
  | .getOrSetAsync key _ _ => inferInstanceAs (Decidable (∀ i ∈ c.map.get key, _ → _ → _))
  | .cleanupExpiredUpTo maxScan now =>
    inferInstanceAs (Decidable (SweepKeeps now maxScan (c.nextNode + 1) 0 (sweepStart c) c))
  | .set _ _ _ _ _ | .setMany _ _ _ _ | .evict _ | .invalidate _ | .finishFetch _ _ | .resize _ _
  | .entries _ => inferInstanceAs (Decidable True)

/-- What a call makes of the entries, in this order: told by what it finds, what it returns
and what it calls back. -/
def marks (c : Cache K V) (ev : Event K V) : List (Mark K) :=
  match ev with
  | .set key _ _ _ _ =>
    (match (step c ev).2 with
      | .flag true => storeMarks c key
      | _ => []) ++ drops c (step c ev).1
  | .setMany entries ttl weight now =>
    (match expiresAtOf (ttl.getD .never) now with
      | .ok expiresAt => setManyMarks expiresAt weight c entries
      | .error _ => []) ++ drops c (step c ev).1
  | .get key now => hitMarks c (step c ev).1 key false now
  | .getMany keys ignoreExpiry => getManyMarks ignoreExpiry c keys
  | .touch key _ _ =>
    match (step c ev).2 with
    | .flag true => [.used key]
    | _ => drops c (step c ev).1
  | .getOrSetAsync key swr now =>
    if (c.map.get key).any fun i =>
        !expiredAt c i now || (swr.getD c.allowStale && staleServable c i now) then [.used key]
    else drops c (step c ev).1
  | .peek _ _ | .has _ _ _ | .delete _ | .evict _ | .invalidate _ | .finishFetch _ _ | .resize _ _
  | .cleanupExpiredUpTo _ _ | .entries _ => drops c (step c ev).1

/-- The limits a call works with: `resize` sets them first. -/
def limited (c : Cache K V) : Event K V → Cache K V
  | .resize maxEntries maxWeight => { c with
      maxEntries := maxEntries.elim c.maxEntries fun m => some (max 0 m)
      maxWeight := maxWeight.elim c.maxWeight fun m => some (max 0 m) }
  | .set _ _ _ _ _ | .setMany _ _ _ _ | .get _ _ | .peek _ _ | .has _ _ _ | .getMany _ _
  | .touch _ _ _ | .delete _ | .evict _ | .invalidate _ | .getOrSetAsync _ _ _ | .finishFetch _ _
  | .cleanupExpiredUpTo _ _ | .entries _ => c

namespace Ready

/-- The limits are no part of the list. -/
theorem relimit (h : Ready c xs) (n w : Option ℚ) :
    Ready { c with maxEntries := n, maxWeight := w } xs :=
  ⟨⟨⟨h.policy, ⟨h.layout.shape, h.layout.weight, h.layout.ghostWeight⟩, h.boundary, h.hand⟩,
    ⟨h.setup.windowed, h.setup.sketch⟩, ⟨h.memo.windowed, fun m hm => by
      obtain ⟨t, ht, hcase⟩ := h.memo.memo m hm
      exact ⟨t, ht, hcase.imp (fun hl => { hl with })
        fun hs => { hs with }⟩⟩, h.headed⟩, h.parked⟩

protected theorem limited (h : Ready c xs) (ev : Event K V) : Ready (limited c ev) xs := by
  cases ev with
  | resize n w => exact h.relimit _ _
  | _ => exact h

protected theorem evict {n : ℤ} (h : Ready c xs) :
    ∃ xs', Goes c xs (drops c (settleCall c (evict c n) (Outcome.count (K := K) (V := V))).1)
      (settleCall c (evict c n) (Outcome.count (K := K) (V := V))).1 xs' := by
  unfold evict
  split
  · simp only [settleCall]
    rw [(Goes.refl h).drops h (by simp)]
    exact ⟨xs, .refl h⟩
  · obtain ⟨ms, xs', hcount, hms⟩ := h.evictCount (n := n.toNat)
    have hall := hcount.trans hcount.ready.settleCandidate
    simp only [settleCall]
    rw [hall.drops h (by simpa using hms.leaves)]
    exact ⟨xs', hall⟩

theorem fetch (h : Ready c xs) (k : K) :
    Goes c xs [] (if hasInflight c (some k) then c else addInflight (countMiss c true) k) xs := by
  split
  · exact .refl h
  · exact (h.countMiss true).trans ((h.countMiss true).ready.quiet rfl rfl rfl rfl rfl)

protected theorem refreshStaleEntry (h : Ready c xs) (k : K) : Goes c xs [] (refreshStaleEntry c k) xs := by
  unfold refreshStaleEntry
  split
  · exact .refl h
  · split <;> exact h.quiet rfl rfl rfl rfl rfl

theorem serveStale (h : Ready c (l ++ i :: r)) (hk : c.key i = some k) (k' : K) :
    ∃ xs', Goes c (l ++ i :: r) [.used k] (refreshStaleEntry
      { countHit (moveToTail c i) with
        counters := { (countHit (moveToTail c i)).counters with
          staleServes := (countHit (moveToTail c i)).counters.staleServes + 1 } } k') xs' := by
  obtain ⟨xs', huse⟩ := h.use hk
  have hcount := huse.ready.countHit
  have hserve : Goes _ _ [] { countHit (moveToTail c i) with
      counters := { (countHit (moveToTail c i)).counters with
        staleServes := (countHit (moveToTail c i)).counters.staleServes + 1 } } xs' :=
    hcount.ready.quiet rfl rfl rfl rfl rfl
  exact ⟨xs', ((huse.trans hcount).trans hserve).trans (hserve.ready.refreshStaleEntry k')⟩

protected theorem getOrSetAsync {swr : Option Bool} (h : Ready c xs)
    (hok : CandidateOk c (.getOrSetAsync k swr now)) :
    ∃ xs', Goes c xs (marks c (.getOrSetAsync k swr now)) (getOrSetAsync c k swr now) xs' := by
  cases hi : c.map.get k with
  | none =>
    have hfetch := h.fetch k
    have hcall : getOrSetAsync c k swr now =
        if hasInflight c (some k) then c else addInflight (countMiss c true) k := by
      simp only [getOrSetAsync, hi]
    have hmarks : marks c (.getOrSetAsync k swr now) = [] := by
      simp only [marks, hi, Option.any_none, Bool.false_eq_true, if_false, step, hcall]
      exact hfetch.drops h (by simp)
    rw [hmarks, hcall]
    exact ⟨xs, hfetch⟩
  | some i =>
    have hlookup : lookup c k = some i := by rw [lookup_list h.policy, hi]
    obtain ⟨l, r, rfl, hk⟩ := h.lookup_split hlookup
    cases hexp : expiredAt c i now with
    | false =>
      obtain ⟨xs', huse⟩ := h.use hk
      simp only [marks, getOrSetAsync, hi, hexp, Option.any_some, Bool.not_false,
        Bool.true_or, if_true, Bool.false_eq_true, if_false]
      exact ⟨xs', huse.trans huse.ready.countHit⟩
    | true =>
      cases hstale : (swr.getD c.allowStale && staleServable c i now) with
      | true =>
        simp only [marks, getOrSetAsync, hi, hexp, hstale, Option.any_some, Bool.not_true,
          Bool.false_or, if_true]
        exact h.serveStale hk k
      | false =>
        have hremove := h.removeExpiredNode hk (h.droppable (hok i hi hexp hstale))
        have hall := hremove.trans (hremove.ready.fetch k)
        simp only [marks, step, getOrSetAsync, hi, hexp, hstale, Option.any_some,
          Bool.not_true, Bool.false_or, Bool.false_eq_true, if_true, if_false]
        rw [hall.drops h (by simp [Mark.leaves])]
        exact ⟨_, hall⟩

protected theorem resize (h : Ready c xs) (n w : Option ℚ) :
    ∃ xs', Goes (limited c (.resize n w)) xs (drops c (resize c n w)) (resize c n w)
      xs' ∧ Done (resize c n w) xs' := by
  have hlimits := h.limited (.resize n w)
  obtain ⟨ms, xs', hevict, hms, hdone⟩ := hlimits.evictIfNeeded
  have hcursor := hevict.ready.cursor none (by simp)
  have hall := (hevict.trans hcursor).trans hcursor.ready.toSettled.head
  have hdrops : drops c (resize c n w) = ms ++ [] ++ [] :=
    hall.drops hlimits (by simpa using hms.leaves)
  rw [hdrops]
  exact ⟨xs', hall, hdone⟩

theorem finishFetch (h : Ready c xs) (k : K) (abort : Bool) :
    Goes c xs [] (dropInflight (if abort then abortInflight c (some k) else c) k) xs := by
  cases abort with
  | false => exact h.quiet rfl rfl rfl rfl rfl
  | true =>
    have habort := h.abortInflight (some k)
    exact habort.trans (habort.ready.quiet rfl rfl rfl rfl rfl)

end Ready

/-! ## Steps -/

def Calm (ms : List (Mark K)) : Prop := ¬∃ m ∈ ms, m.grows

section
omit [DecidableEq K]

theorem Callback.mark_grows {cb : Callback K V} (h : cb.mark = some m) : m.grows = false := by
  cases cb with
  | onEvict key value reason =>
    simp only [Callback.mark] at h
    split at h
    · obtain ⟨k, -, rfl⟩ := Option.map_eq_some_iff.mp h
      rfl
    · split at h
      · cases h
      · obtain ⟨k, -, rfl⟩ := Option.map_eq_some_iff.mp h
        rfl
  | onExpire key value =>
    obtain ⟨k, -, rfl⟩ := Option.map_eq_some_iff.mp h
    rfl

theorem calm_drops : Calm (drops c c') := by
  rintro ⟨m, hm, hgrows⟩
  obtain ⟨cb, -, hcb⟩ := List.mem_filterMap.mp hm
  rw [Callback.mark_grows hcb] at hgrows
  exact Bool.false_ne_true hgrows

theorem calm_nil : Calm ([] : List (Mark K)) := by simp [Calm]

theorem calm_used : Calm [Mark.used k] := by simp [Calm, Mark.grows]

protected theorem Calm.append (h : Calm ms) (h' : Calm ms') : Calm (ms ++ ms') := by
  rintro ⟨m, hm, hgrows⟩
  rcases List.mem_append.mp hm with hm | hm
  · exact h ⟨m, hm, hgrows⟩
  · exact h' ⟨m, hm, hgrows⟩

theorem calm_hitMarks {ign : Bool} : Calm (hitMarks c c' k ign now) := by
  unfold hitMarks
  split
  · exact calm_used
  · exact calm_drops

end

theorem calm_getManyMarks {ign : Bool} {keys : List (K × ℚ)} : Calm (getManyMarks ign c keys) := by
  induction keys generalizing c with
  | nil => exact calm_nil
  | cons q keys ih =>
    rw [getManyMarks]
    exact calm_hitMarks.append ih

/-- A call is a row of moves, and once it has made the cache hold more it has evicted. -/
protected theorem Ready.step {ev : Event K V} (h : Ready c xs) (hok : CandidateOk c ev) :
    ∃ ms xs', Goes (limited c ev) xs ms (step c ev).1 xs' ∧ (c.sketch = none → ms = marks c ev) ∧
      (Done (step c ev).1 xs' ∨ limited c ev = c ∧ Calm ms) := by
  cases ev with
  | set key value ttl weight now =>
    simp only [step, set, marks]
    cases hx : expiresAtOf (ttl.getD c.defaultTTL) now with
    | error e =>
      simp only [settleCall]
      exact ⟨[], xs, .refl h, fun _ => ((Goes.refl h).drops h (by simp)).symm, Or.inr ⟨rfl, calm_nil⟩⟩
    | ok x =>
      obtain ⟨ms, xs', hgoes, hms, hdone⟩ := h.store (k := key) (v := value) (x := x) weight
      simp only [settleCall]
      refine ⟨ms, xs', hgoes, fun hsketch => (hms hsketch).trans ?_, ?_⟩
      · cases (PowerCache.store c key value x weight).2 <;> rfl
      · by_cases hgrows : ∃ m ∈ ms, m.grows
        · exact Or.inl (hdone hgrows)
        · exact Or.inr ⟨rfl, hgrows⟩
  | setMany entries ttl weight now =>
    simp only [step, setMany, marks]
    cases hx : expiresAtOf (ttl.getD .never) now with
    | error e =>
      simp only [settleCall, Except.map]
      exact ⟨[], xs, .refl h, fun _ => ((Goes.refl h).drops h (by simp)).symm, Or.inr ⟨rfl, calm_nil⟩⟩
    | ok x =>
      obtain ⟨ms, xs', hgoes, hms, hdone⟩ := h.setMany (x := x) weight entries
      simp only [settleCall, Except.map]
      exact ⟨ms, xs', hgoes, hms, Or.inl hdone⟩
  | get key now =>
    obtain ⟨xs', hgoes⟩ := h.get hok
    exact ⟨_, xs', hgoes, fun _ => rfl, Or.inr ⟨rfl, calm_hitMarks⟩⟩
  | peek key now =>
    obtain ⟨xs', hgoes⟩ := h.peek hok
    exact ⟨_, xs', hgoes, fun _ => rfl, Or.inr ⟨rfl, calm_drops⟩⟩
  | has key ign now =>
    obtain ⟨xs', hgoes⟩ := h.has hok
    exact ⟨_, xs', hgoes, fun _ => rfl, Or.inr ⟨rfl, calm_drops⟩⟩
  | getMany keys ign =>
    obtain ⟨xs', hgoes⟩ := h.getMany hok
    exact ⟨_, xs', hgoes, fun _ => rfl, Or.inr ⟨rfl, calm_getManyMarks⟩⟩
  | touch key ttl now =>
    obtain ⟨ms, xs', hgoes, hms⟩ := h.touch ttl hok
    refine ⟨ms, xs', hgoes, fun _ => hms, Or.inr ⟨rfl, ?_⟩⟩
    rw [hms]
    split
    · exact calm_used
    · exact calm_drops
  | delete key =>
    obtain ⟨xs', hgoes⟩ := h.delete hok
    exact ⟨_, xs', hgoes, fun _ => rfl, Or.inr ⟨rfl, calm_drops⟩⟩
  | evict n =>
    obtain ⟨xs', hgoes⟩ := h.evict (n := n)
    exact ⟨_, xs', hgoes, fun _ => rfl, Or.inr ⟨rfl, calm_drops⟩⟩
  | invalidate p =>
    obtain ⟨xs', hgoes⟩ := h.invalidate p
    exact ⟨_, xs', hgoes, fun _ => rfl, Or.inr ⟨rfl, calm_drops⟩⟩
  | getOrSetAsync key swr now =>
    obtain ⟨xs', hgoes⟩ := h.getOrSetAsync hok
    refine ⟨_, xs', hgoes, fun _ => rfl, Or.inr ⟨rfl, ?_⟩⟩
    simp only [marks]
    split
    · exact calm_used
    · exact calm_drops
  | finishFetch key abort =>
    have hgoes := h.finishFetch key abort
    exact ⟨[], xs, hgoes, fun _ => (hgoes.drops h (by simp)).symm, Or.inr ⟨rfl, calm_nil⟩⟩
  | resize n w =>
    obtain ⟨xs', hgoes, hdone⟩ := h.resize n w
    exact ⟨_, xs', hgoes, fun _ => rfl, Or.inl hdone⟩
  | cleanupExpiredUpTo n now =>
    obtain ⟨xs', hgoes⟩ := h.cleanupExpiredUpTo hok
    exact ⟨_, xs', hgoes, fun _ => rfl, Or.inr ⟨rfl, calm_drops⟩⟩
  | entries order =>
    exact ⟨[], xs, .refl h, fun _ => ((Goes.refl h).drops h (by simp)).symm, Or.inr ⟨rfl, calm_nil⟩⟩

/-! ## Where the candidate is the head -/

namespace Ready

theorem head_lookup {ign : Bool} (h : Ready c xs) (hhead : AtHead c) : LookupKeeps c k ign now := by
  intro i hi _ _ _
  obtain ⟨l, r, rfl, -⟩ := h.lookup_split hi
  exact h.head_droppable hhead (by simp)

theorem head_getMany {ign : Bool} {keys : List (K × ℚ)} {vs : List (K × Option V)} (h : Ready c xs)
    (hhead : AtHead c) : Meets (getManyOne ign)
      (fun acc q => LookupKeeps acc.1 q.1 ign q.2) (c, vs) keys := by
  induction keys generalizing c xs vs with
  | nil => trivial
  | cons q keys ih =>
    have hq : LookupKeeps c q.1 ign q.2 := h.head_lookup hhead
    obtain ⟨xs', hone⟩ := h.getManyOne vs hq
    exact ⟨hq, ih hone.ready (hhead.getManyOne h.policy)⟩

theorem head_sweep {maxScan : Option ℚ} {turns scanned : ℕ} {node : Option ℕ} (h : Ready c xs)
    (hhead : AtHead c) (hnode : ∀ i ∈ node, i ∈ xs) :
    SweepKeeps now maxScan turns scanned node c := by
  induction turns generalizing c xs scanned node with
  | zero => trivial
  | succ turns ih =>
    cases node with
    | none => trivial
    | some i =>
      obtain ⟨l, r, k, rfl, hk⟩ := h.keyed_split (hnode i rfl)
      have hdrop := h.head_droppable hhead (hnode i rfl)
      have hnext : ∀ j ∈ c.links.next i, j ∈ r := by
        intro j hj
        rw [h.next_eq] at hj
        exact List.mem_of_head? hj
      rw [SweepKeeps]
      split
      · refine ⟨fun _ => hdrop, ?_⟩
        cases hexp : expiredAt c i now with
        | true =>
          have hremove := h.removeExpiredNode hk (h.droppable hdrop)
          exact ih hremove.ready (hhead.removeExpiredNode h.policy) fun j hj =>
            List.mem_append_right l (hnext j hj)
        | false =>
          exact ih h hhead fun j hj => List.mem_append_right l (List.mem_cons_of_mem i (hnext j hj))
      · trivial

/-- Where the candidate is the head, no call takes a node out from under it. -/
theorem head_ok (ev : Event K V) (h : Ready c xs) (hhead : AtHead c) : CandidateOk c ev := by
  cases ev with
  | get key now | peek key now | touch key ttl now | has key ign now => exact h.head_lookup hhead
  | getMany keys ign => exact h.head_getMany hhead
  | delete key =>
    intro i hi
    obtain ⟨l, r, rfl, -⟩ := h.lookup_split hi
    exact h.head_droppable hhead (by simp)
  | getOrSetAsync key swr now =>
    intro i hi _ _
    exact h.head_droppable hhead (h.get_iff.mp hi).1
  | cleanupExpiredUpTo maxScan now => exact h.head_sweep hhead h.sweepStart_mem
  | set _ _ _ _ _ | setMany _ _ _ _ | evict _ | invalidate _ | finishFetch _ _ | resize _ _
  | entries _ => trivial

end Ready

/-! ## The other calls -/

/-- `typeof factory === 'function'`. -/
def Factory.isFunction : Factory V → Bool
  | .value _ => false
  | .returns _ | .promises | .throws _ => true

/-- `getOrSet` takes the node out that it finds: it has expired, and is not served stale. -/
def takesOut (c : Cache K V) (factory : Factory V) (staleWhileRevalidate : Option Bool) (now : ℚ)
    (i : ℕ) : Bool :=
  expiredAt c i now && (!(staleWhileRevalidate.getD c.allowStale) && decide (now ≠ 0) ||
    !(factory.isFunction && staleServable c i now))

/-- `getOrSet` of a node it finds. -/
def serveFound (c : Cache K V) (key : K) (factory : Factory V) (ttl : Option Ttl)
    (weight : Option Weight) (now setNow : ℚ) (i : ℕ) : Cache K V × Except String (Option V) :=
  if expiredAt c i now then
    if factory.isFunction && staleServable c i now then
      let c := countHit (moveToTail c i)
      let c := refreshStaleEntry
        { c with counters := { c.counters with staleServes := c.counters.staleServes + 1 } } key
      (c, .ok (c.value i))
    else produce (countMiss (removeExpiredNode c i) true) key factory ttl weight setNow
  else
    let c := countHit (moveToTail c i)
    (c, .ok (c.value i))

theorem getOrSet_eq {factory : Factory V} {ttl : Option Ttl} {weight : Option Weight}
    {swr : Option Bool} {setNow : ℚ} : getOrSet c k factory ttl weight swr now setNow =
      match findNode c k (swr.getD c.allowStale) now with
      | (c, none) => produce (countMiss c true) k factory ttl weight setNow
      | (c, some i) => serveFound c k factory ttl weight now setNow i := by
  cases factory <;> rfl

/-- The condition on a call. -/
def CallOk (c : Cache K V) : Call K V → Prop
  | .event ev => CandidateOk c ev
  | .getOrSet key factory _ _ swr now _ => ∀ i ∈ lookup c key, takesOut c factory swr now i → Droppable c i
  | .clear => True

instance (c : Cache K V) : ∀ cl, Decidable (CallOk c cl)
  | .event ev => inferInstanceAs (Decidable (CandidateOk c ev))
  | .getOrSet key _ _ _ _ _ _ => inferInstanceAs (Decidable (∀ i ∈ lookup c key, _ → _))
  | .clear => inferInstanceAs (Decidable True)

namespace Ready

protected theorem produce (factory : Factory V) (ttl : Option Ttl) (weight : Option Weight) (now : ℚ)
    (h : Ready c xs) :
    ∃ ms xs', Goes c xs ms (produce c k factory ttl weight now).1 xs' ∧
      (Done (produce c k factory ttl weight now).1 xs' ∨ Calm ms) := by
  have hset : ∀ v, ∃ ms xs', Goes c xs ms (produce c k (.value v) ttl weight now).1 xs' ∧
      (Done (produce c k (.value v) ttl weight now).1 xs' ∨ Calm ms) := by
    intro v
    simp only [produce, set]
    cases hx : expiresAtOf (ttl.getD c.defaultTTL) now with
    | error e => exact ⟨[], xs, .refl h, Or.inr calm_nil⟩
    | ok x =>
      obtain ⟨ms, xs', hgoes, -, hdone⟩ := h.store (k := k) (v := v) (x := x) weight
      refine ⟨ms, xs', hgoes, ?_⟩
      by_cases hgrows : ∃ m ∈ ms, m.grows
      · exact Or.inl (hdone hgrows)
      · exact Or.inr hgrows
  cases factory with
  | value v | returns v => exact hset v
  | promises | throws _ => exact ⟨[], xs, .refl h, Or.inr calm_nil⟩

/-- What `getOrSet` does where the key is missing, or was until now. -/
theorem miss {factory : Factory V} {ttl : Option Ttl} {weight : Option Weight} (h : Ready c xs)
    (hgoes : Goes c xs ms c' xs') (hms : Calm ms) : ∃ ms xs',
      Goes c xs ms (produce (countMiss c' true) k factory ttl weight now).1 xs' ∧
      (Done (produce (countMiss c' true) k factory ttl weight now).1 xs' ∨
        Calm ms) := by
  have hmiss := hgoes.trans (hgoes.ready.countMiss true)
  obtain ⟨ms', xs'', hproduce, hdone⟩ := hmiss.ready.produce (k := k) factory ttl weight now
  refine ⟨_, xs'', hmiss.trans hproduce, hdone.imp_right fun hcalm => ?_⟩
  exact (hms.append calm_nil).append hcalm

protected theorem serveFound {factory : Factory V} {ttl : Option Ttl} {weight : Option Weight} {setNow : ℚ}
    (h : Ready c (l ++ i :: r)) (hk : c.key i = some k)
    (hok : expiredAt c i now → (factory.isFunction && staleServable c i now) = false →
      Droppable c i) :
    ∃ ms xs', Goes c (l ++ i :: r) ms (serveFound c k factory ttl weight now setNow i).1 xs' ∧
      (Done (serveFound c k factory ttl weight now setNow i).1 xs' ∨ Calm ms) := by
  unfold serveFound
  cases hexp : expiredAt c i now with
  | false =>
    obtain ⟨xs', huse⟩ := h.use hk
    exact ⟨_, xs', huse.trans huse.ready.countHit, Or.inr (calm_used.append calm_nil)⟩
  | true =>
    cases hserve : factory.isFunction && staleServable c i now with
    | true =>
      obtain ⟨xs', hgoes⟩ := h.serveStale hk k
      exact ⟨_, xs', hgoes, Or.inr calm_used⟩
    | false =>
      have hremove := h.removeExpiredNode hk (h.droppable (hok hexp hserve))
      exact h.miss hremove (by simp [Calm, Mark.grows])

theorem getOrSet {factory : Factory V} {ttl : Option Ttl} {weight : Option Weight}
    {swr : Option Bool} {setNow : ℚ} (h : Ready c xs)
    (hok : CallOk c (.getOrSet k factory ttl weight swr now setNow)) :
    ∃ ms xs', Goes c xs ms (getOrSet c k factory ttl weight swr now setNow).1 xs' ∧
      (Done (PowerCache.getOrSet c k factory ttl weight swr now setNow).1 xs' ∨ Calm ms) := by
  have hstays : ∀ i ∈ lookup c k, expiredAt c i now → (factory.isFunction && staleServable c i now) = false →
      Droppable c i := by
    intro i hi hexp hserve
    exact hok i hi (by rw [takesOut, hexp, hserve]; simp)
  rw [getOrSet_eq]
  simp only [findNode]
  cases hallow : swr.getD c.allowStale with
  | true =>
    have hfilter : ((lookup c k).filter fun i => !(decide (c.policy = .s3fifo) &&
        (c.map.get k).isNone && c.queue i == .ghost)) = lookup c k := by
      cases lookup c k <;> simp [h.policy]
    simp only [if_true, hfilter]
    cases hi : lookup c k with
    | none => exact h.miss (.refl h) calm_nil
    | some i =>
      obtain ⟨l, r, rfl, hk⟩ := h.lookup_split hi
      exact h.serveFound hk (hstays i hi)
  | false =>
    have hkeeps : LookupKeeps c k false now := by
      intro i hi _ hnow hexp
      refine hok i hi ?_
      rw [takesOut, hexp, hallow, decide_eq_true hnow]
      rfl
    simp only [Bool.false_eq_true, if_false]
    rcases h.fetchValidNode false hkeeps with ⟨c', ms, xs', hfetch, -, hgoes, hms⟩ |
      ⟨i, l, r, hfetch, -, hi, rfl, hk⟩
    · rw [hfetch]
      refine h.miss hgoes fun hsome => ?_
      obtain ⟨m, hm, hgrows⟩ := hsome
      have hleaves := hms m hm
      cases m <;> simp [Mark.leaves, Mark.grows] at hleaves hgrows
    · rw [hfetch]
      exact h.serveFound hk (hstays i hi)

end Ready

/-! ## Runs -/

structure Held (c : Cache K V) (xs : List ℕ) : Prop extends Ready c xs where
  weights : ∀ i, 0 ≤ c.weight i
  maxEntries : ∀ n ∈ c.maxEntries, 0 ≤ n
  maxWeight : ∀ w ∈ c.maxWeight, 0 ≤ w
  fits : overLimit c c.map.size = false

omit [DecidableEq K] in
theorem overLimit_iff {n : ℚ} : overLimit c n = false ↔
    (∀ m ∈ c.maxEntries, n ≤ m) ∧ ∀ m ∈ c.maxWeight, c.currentWeight ≤ m := by
  have hany : ∀ (o : Option ℚ) (x : ℚ), (o.any fun m => decide (m < x)) = false ↔ ∀ m ∈ o, x ≤ m := by
    intro o x
    cases o <;> simp
  rw [overLimit, Bool.or_eq_false_iff]
  exact and_congr (hany _ _) (hany _ _)

omit [DecidableEq K] in
/-- A list that is empty is within its limits. -/
theorem Done.fits (h : Done c xs) (hlisted : Listed c xs) (hentries : ∀ n ∈ c.maxEntries, 0 ≤ n)
    (hweight : ∀ w ∈ c.maxWeight, 0 ≤ w) : overLimit c c.map.size = false := by
  rcases h with h | rfl
  · exact h
  · rw [overLimit_iff, hlisted.size_eq, hlisted.weight_eq]
    simpa using ⟨hentries, hweight⟩

theorem Held.shrink (h : Held c xs) (hgoes : Goes c xs ms c' xs') (hms : Calm ms) :
    overLimit c' c'.map.size = false := by
  obtain ⟨hlength, hcurrent⟩ := hgoes.moves.shrinks h.toListed h.weights hms
  have hconfig := hgoes.moves.config h.toListed
  obtain ⟨hentries, hweight⟩ := overLimit_iff.mp h.fits
  rw [overLimit_iff, hconfig, hgoes.ready.size_eq]
  rw [h.size_eq] at hentries
  refine ⟨fun n hn => le_trans ?_ (hentries n hn), fun w hw => hcurrent.trans (hweight w hw)⟩
  exact_mod_cast hlength

omit [DecidableEq K] in
theorem limited_nonneg (ev : Event K V) (hentries : ∀ n ∈ c.maxEntries, 0 ≤ n)
    (hweight : ∀ w ∈ c.maxWeight, 0 ≤ w) : (∀ n ∈ (limited c ev).maxEntries, 0 ≤ n) ∧
      ∀ w ∈ (limited c ev).maxWeight, 0 ≤ w := by
  have hnonneg : ∀ {old new : Option ℚ}, (∀ n ∈ old, 0 ≤ n) →
      ∀ n ∈ new.elim old fun m => some (max 0 m), 0 ≤ n := by
    intro old new hold n hn
    cases new with
    | none => exact hold n hn
    | some m =>
      obtain rfl := Option.some.inj hn
      exact le_max_left 0 m
  cases ev with
  | resize n w => exact ⟨hnonneg hentries, hnonneg hweight⟩
  | _ => exact ⟨hentries, hweight⟩

namespace Held

/-- A row of moves by limits that are not negative. -/
theorem goes (h : Goes c xs ms c' xs') (hready : Ready c xs) (hweights : ∀ i, 0 ≤ c.weight i)
    (hentries : ∀ n ∈ c.maxEntries, 0 ≤ n) (hweight : ∀ w ∈ c.maxWeight, 0 ≤ w)
    (hfits : (∀ n ∈ c'.maxEntries, 0 ≤ n) → (∀ w ∈ c'.maxWeight, 0 ≤ w) →
      overLimit c' c'.map.size = false) : Held c' xs' := by
  have hconfig := h.moves.config hready.toListed
  rw [← hconfig] at hentries hweight
  exact ⟨h.ready, h.moves.weights hready.toListed hweights, hentries, hweight,
    hfits hentries hweight⟩

protected theorem step {ev : Event K V} (h : Held c xs) (hok : CandidateOk c ev) :
    ∃ xs', Held (step c ev).1 xs' := by
  obtain ⟨ms, xs', hgoes, -, hdone⟩ := h.toReady.step hok
  obtain ⟨hentries, hweight⟩ := limited_nonneg ev h.maxEntries h.maxWeight
  have hweights : (limited c ev).weight = c.weight := by cases ev <;> rfl
  refine ⟨xs', Held.goes hgoes (h.limited ev) (by rw [hweights]; exact h.weights) hentries hweight
    fun hentries' hweight' => ?_⟩
  rcases hdone with hdone | ⟨hsame, hms⟩
  · exact hdone.fits hgoes.ready.toListed hentries' hweight'
  · rw [hsame] at hgoes
    exact h.shrink hgoes hms

theorem call {cl : Call K V} (h : Held c xs) (hok : CallOk c cl) : ∃ xs', Held (call c cl) xs' := by
  cases cl with
  | event ev => exact h.step hok
  | getOrSet key factory ttl weight swr now setNow =>
    obtain ⟨ms, xs', hgoes, hdone⟩ := h.toReady.getOrSet hok
    refine ⟨xs', Held.goes hgoes h.toReady h.weights h.maxEntries h.maxWeight
      fun hentries hweight => ?_⟩
    rcases hdone with hdone | hms
    · exact hdone.fits hgoes.ready.toListed hentries hweight
    · exact h.shrink hgoes hms
  | clear =>
    have hclear := h.toReady.clear
    have hconfig := (clear_frame h.layout).1
    have hentries : ∀ n ∈ (clear c).maxEntries, 0 ≤ n := by
      rw [hconfig]
      exact h.maxEntries
    have hweight : ∀ w ∈ (clear c).maxWeight, 0 ≤ w := by
      rw [hconfig]
      exact h.maxWeight
    exact ⟨[], hclear, clear_weights h.weights, hentries, hweight,
      Done.fits (Or.inr rfl) hclear.toListed hentries hweight⟩

omit [DecidableEq K] in
theorem new {o : Options K V} (hnew : new o = .ok c) (hpol : o.policy ≠ .s3fifo) : Held c [] := by
  have hlayout := (Rep.new hnew).toLayout
  obtain ⟨maxEntries, inflight, maxWeight, pool, hc, hentries, hweight⟩ := new_eq_initial hnew
  have hnil : (fun _ => []) = onlyMain ([] : List ℕ) := by
    funext q
    cases q <;> rfl
  rw [hnil] at hlayout
  have hsetup : Setup c.toConfig := by
    rw [hc]
    refine ⟨fun hwindow => ?_, fun hsketch => ?_⟩
    · by_cases hlru : o.policy = .lru ∧ o.admission.isSome
      · simpa [initial, hlru.1, Option.isSome_iff_ne_none] using hlru.2
      · simp [Windowed, initial, hlru] at hwindow
    · by_contra hlru
      simp [initial, show o.policy ≠ .lru from hlru] at hsketch
  subst hc
  have hlisted : Listed (initial o maxEntries inflight maxWeight pool) [] :=
    ⟨hpol, hlayout, by simp [initial], by simp [initial]⟩
  have hlimit : ∀ n ∈ (initial o maxEntries inflight maxWeight pool).maxEntries, 0 ≤ n := by
    intro n hn
    obtain ⟨n', hn', rfl⟩ := Option.mem_map.mp hn
    exact Int.cast_nonneg (hentries n' hn')
  refine ⟨⟨⟨hlisted, hsetup, .of_none rfl, fun _ => rfl⟩, by simp [Parked, initial]⟩, fun _ => le_rfl,
    hlimit, hweight, Done.fits (Or.inr rfl) hlisted hlimit hweight⟩

end Held

/-- The list from head to tail is the nodes of the map, the eviction candidate is one of
them, and there are not too many. -/
structure ListKept (c : Cache K V) : Prop where
  list : ∃ xs, Linked c.links c.main xs ∧ Indexes c.map c.key xs ∧ ∀ i ∈ c.evictionCandidate, i ∈ xs
  maxEntries : ∀ n ∈ c.maxEntries, (c.map.size : ℚ) ≤ n

omit [DecidableEq K] in
theorem Held.listKept (h : Held c xs) : ListKept c :=
  ⟨⟨xs, h.linked, h.indexes, h.parked⟩, (overLimit_iff.mp h.fits).1⟩

/-- Whatever evictions cost, the list is kept in a run that takes no node out from under the
eviction candidate. -/
theorem list_kept {o : Options K V} {c : Cache K V} (hnew : new o = .ok c)
    (hpol : o.policy = .lru ∨ o.policy = .slru) (cs : List (Call K V)) (hok : Meets call CallOk c cs) :
    Always call ListKept c cs := by
  have hpol' : o.policy ≠ .s3fifo := by
    rcases hpol with hpol | hpol <;> simp [hpol]
  have hstart : ∃ xs, Held c xs := ⟨[], Held.new hnew hpol'⟩
  have hall : Always call (fun c => ∃ xs, Held c xs) c cs :=
    always_of_meets (fun _ _ ⟨_, h⟩ hok => h.call hok) hstart hok
  exact hall.mono fun _ ⟨_, h⟩ => h.listKept

/-- Values cost what they are: the second of three entries goes, and the candidate is on the
third until that is used, deleted and swept elsewhere. -/
theorem list_kept_costs :
    let hook : ℕ → Option ℕ → Option ℕ → Cost := fun _ _ v =>
      v.map fun n => (((n : ℚ) : WithTop ℚ) : WithBot (WithTop ℚ))
    let o : Options ℕ ℕ := { maxEntries := some 3, missCost := some hook }
    let c : Cache ℕ ℕ := initial o (some 3) 3 none (some 1000)
    Always call ListKept c [.event (.set 1 10 none none 1), .event (.set 2 5 (some (.ms 9)) none 2),
      .event (.set 3 30 none none 3), .event (.set 4 40 none none 4), .event (.get 3 5),
      .event (.delete 1), .event (.set 5 1 (some (.ms 2)) none 6), .event (.touch 4 none 7),
      .event (.cleanupExpiredUpTo none 9), .event (.evict 1),
      .event (.invalidate fun key _ => key = some 4)] := by
  intro hook o c
  have hnew : new o = .ok c := rfl
  refine list_kept hnew (Or.inl rfl) _ ?_
  clear hnew
  subst hook o c
  decide +kernel

/-- The node the candidate is on is deleted, and the candidate stays on it. -/
theorem delete_loses_candidate :
    let hook : ℕ → Option ℕ → Option ℕ → Cost := fun _ _ v =>
      v.map fun n => (((n : ℚ) : WithTop ℚ) : WithBot (WithTop ℚ))
    let o : Options ℕ ℕ := { maxEntries := some 3, missCost := some hook }
    let c : Cache ℕ ℕ := initial o (some 3) 3 none (some 1000)
    new o = .ok c ∧ ¬Always call ListKept c [.event (.set 1 10 none none 1), .event (.set 2 5 none none 2),
      .event (.set 3 30 none none 3), .event (.set 4 40 none none 4), .event (.delete 3)] := by
  refine ⟨rfl, fun h => ?_⟩
  obtain ⟨xs, -, hindexes, hparked⟩ := h.last.list
  obtain ⟨k, hk⟩ := hindexes.keyed 2 (hparked 2 (by decide +kernel))
  have hfreed := Option.isSome_of_eq_some hk
  revert hfreed
  decide +kernel

end PerformanceHelpers.PowerCache
