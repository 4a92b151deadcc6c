import PerformanceHelpers.PowerCache.Lru
import PerformanceHelpers.PowerCache.ReferenceLaws

/- Runs of an LRU cache.

   Side by side with its model a cache returns what the model returns, and the
   model's promises become its own: no read returns an expired value, a write
   leaves the cache within its limits, and what it evicts is what was used longest
   ago. The condition on a run is that 0 is never taken for a time. -/
namespace PerformanceHelpers.PowerCache

variable {K V : Type} [DecidableEq K] {c : Cache K V} {m : Recency K V} {xs : List ℕ}

def Ttl.endsAtZero (ttl : Ttl) (now : ℚ) : Bool :=
  match ttl with
  | .ms t => decide (now + t = 0)
  | .never | .invalid => false

/-- The call does not make a time of 0, nor read one from the clock where it matters: no
entry is stored to expire at 0, and no lookup at 0 meets an entry that expired before. -/
def TimesOk (c : Cache K V) : Event K V → Prop
  | .set _ value ttl weight now =>
    (ttl.getD c.defaultTTL).endsAtZero now →
      oversized c (computeWeight c.weightFn value weight)
  | .setMany entries ttl weight now =>
    (ttl.getD .never).endsAtZero now →
      ∀ p ∈ entries, oversized c (computeWeight c.weightFn p.2 weight)
  | .get key now | .peek key now => ReadOk c key false now
  | .has key ignoreExpiry now => ReadOk c key ignoreExpiry now
  | .getMany keys ignoreExpiry => Meets (getManyOne ignoreExpiry)
      (fun acc q => ReadOk acc.1 q.1 ignoreExpiry q.2) (c, []) keys
  | .touch key ttl now => ReadOk c key false now ∧
      ((ttl.getD .never).endsAtZero now → ∀ i ∈ c.map.get key, expiredAt c i now)
  | _ => True

instance (c : Cache K V) : ∀ ev, Decidable (TimesOk c ev)
  | .set _ _ _ _ _ => inferInstanceAs (Decidable (_ → _))
  | .setMany _ _ _ _ => inferInstanceAs (Decidable (_ → ∀ p ∈ _, _))
  | .get key now | .peek key now => inferInstanceAs (Decidable (ReadOk c key false now))
  | .has key ign now => inferInstanceAs (Decidable (ReadOk c key ign now))
  | .getMany keys ign => inferInstanceAs (Decidable (Meets (getManyOne ign)
      (fun acc q => ReadOk acc.1 q.1 ign q.2) (c, []) keys))
  | .touch _ _ _ => inferInstanceAs (Decidable (_ ∧ _))
  | .delete _ | .evict _ | .invalidate _ | .getOrSetAsync _ _ _ | .finishFetch _ _ | .resize _ _
  | .cleanupExpiredUpTo _ _ | .entries _ => inferInstanceAs (Decidable True)

theorem endsAtZero_of_ms {ttl : Ttl} {t now : ℚ} (h : ttl = .ms t) (h0 : now + t = 0) :
    ttl.endsAtZero now := by
  rw [h]
  exact decide_eq_true h0

/-- Every call keeps the relation and returns what the model returns. -/
protected theorem Refines.step {ev : Event K V} (h : Refines c m xs) (hok : TimesOk c ev) :
    Sim (step c ev) (m.step ev) := by
  cases ev with
  | set key value ttl weight now => exact h.set fun t ht h0 => hok (endsAtZero_of_ms ht h0)
  | setMany entries ttl weight now => exact h.setMany fun t ht h0 => hok (endsAtZero_of_ms ht h0)
  | get key now =>
    obtain ⟨hrel, hout⟩ := h.get hok
    exact ⟨hrel, congrArg Outcome.value hout⟩
  | peek key now =>
    obtain ⟨hrel, hout⟩ := h.peek hok
    exact ⟨hrel, congrArg Outcome.value hout⟩
  | has key ign now =>
    obtain ⟨hrel, hout⟩ := h.has hok
    exact ⟨hrel, congrArg Outcome.flag hout⟩
  | getMany keys ign =>
    have hstart : Refines ((c, []) : Cache K V × List (K × Option V)).1
      ((m, []) : Recency K V × List (K × Option V)).1 xs := h
    obtain ⟨hrel, hout⟩ := hstart.getMany rfl hok
    exact ⟨hrel, congrArg Outcome.values hout⟩
  | touch key ttl now =>
    refine h.touch hok.1 fun t ht h0 => hok.2 ?_
    rw [ht]
    exact decide_eq_true h0
  | delete key => exact h.delete
  | evict n => exact h.evict
  | invalidate p => exact h.invalidate
  | getOrSetAsync key swr now => exact h.getOrSetAsync
  | finishFetch key abort => exact h.finishFetch
  | resize maxEntries maxWeight => exact h.resize
  | cleanupExpiredUpTo maxScan now => exact h.cleanupExpiredUpTo
  | entries order => exact h.walks

/-- A cache and its model, one call on both. -/
def beside (s : Cache K V × Recency K V) (ev : Event K V) : Cache K V × Recency K V :=
  ((step s.1 ev).1, (s.2.step ev).1)

/-- The list from head to tail is the model's, the map holds its nodes, the weight is what
they weigh, and both are within the limits. -/
structure Agrees (s : Cache K V × Recency K V) : Prop where
  list : ∃ xs, Linked s.1.links s.1.main xs ∧ Indexes s.1.map s.1.key xs ∧
    xs.map s.1.toFields.entry = s.2.entries.map some
  currentWeight : s.1.currentWeight = (s.2.entries.map Entry.weight).sum
  maxEntries : ∀ n ∈ s.1.maxEntries, (s.1.map.size : ℚ) ≤ n
  maxWeight : ∀ w ∈ s.1.maxWeight, s.1.currentWeight ≤ w

/-- The call returns what the model returns, nothing that has expired, and evicts the
model's oldest entries. -/
structure Answers (s : Cache K V × Recency K V) (ev : Event K V) : Prop where
  outcome : (step s.1 ev).2 = (s.2.step ev).2
  fresh : s.2.Fresh ev (step s.1 ev).2
  newest : s.2.KeepsNewest (s.2.step ev).1 ev

structure Together (s : Cache K V × Recency K V) : Prop where
  refines : ∃ xs, Refines s.1 s.2 xs
  within : s.2.Within

omit [DecidableEq K] in
theorem Together.agrees {s : Cache K V × Recency K V} (h : Together s) : Agrees s := by
  obtain ⟨xs, hxs⟩ := h.refines
  obtain ⟨hentries, hweight⟩ := Recency.fits_iff.mp h.within.fits
  rw [← hxs.config] at hentries hweight
  refine ⟨⟨xs, hxs.linked, hxs.indexes, hxs.entries⟩, hxs.totalWeight_eq, fun n hn => ?_,
    fun w hw => ?_⟩
  · rw [hxs.size_eq]
    exact hentries n hn
  · rw [hxs.totalWeight_eq]
    exact hweight w hw

protected theorem Together.step {s : Cache K V × Recency K V} {ev : Event K V} (h : Together s)
    (hok : TimesOk s.1 ev) : Together (beside s ev) := by
  obtain ⟨xs, hxs⟩ := h.refines
  exact ⟨(hxs.step hok).1, h.within.step ev⟩

theorem Together.answers {s : Cache K V × Recency K V} {ev : Event K V} (h : Together s)
    (hok : TimesOk s.1 ev) : Answers s ev := by
  obtain ⟨xs, hxs⟩ := h.refines
  have hout := (hxs.step hok).2
  refine ⟨hout, ?_, Recency.Distinct.keepsNewest hxs.distinct ev⟩
  rw [hout]
  exact Recency.fresh_step s.2 ev

omit [DecidableEq K] in
theorem Together.new {o : Options K V} (hnew : new o = .ok c) (hpol : o.policy = .lru)
    (hcost : o.missCost = none) (hadmission : o.admission = none) :
    Together (c, ⟨c.toConfig, [], none⟩) := by
  obtain ⟨maxEntries, inflight, maxWeight, pool, hc, hentries, hweight⟩ := new_eq_initial hnew
  have hrep : Rep c (onlyMain []) := by
    have hnil : onlyMain [] = fun _ => [] := by
      funext q
      cases q <;> rfl
    rw [hnil]
    exact Rep.new hnew
  have hlimit : ∀ n ∈ c.maxEntries, 0 ≤ n := by
    rw [hc]
    intro n hn
    obtain ⟨n', hn', rfl⟩ := Option.mem_map.mp hn
    exact Int.cast_nonneg (hentries n' hn')
  have hlimit' : ∀ w ∈ c.maxWeight, 0 ≤ w := by
    rw [hc]
    exact hweight
  refine ⟨⟨[], ?_, rfl, hrep, rfl, ?_⟩, hlimit, hlimit', by simp, ?_⟩
  · rw [hc]
    refine ⟨hpol, hcost, ?_, ?_⟩
    · simp [initial, hadmission]
    · simp [initial, hadmission]
  · rw [hc]
    rfl
  · exact Recency.fits_iff.mpr ⟨by simpa using hlimit, by simpa [Recency.totalWeight] using hlimit'⟩

/-- In a run in which 0 is never taken for a time, an LRU cache without costs and without
an admission filter is its model. -/
theorem lru_refines {o : Options K V} {c : Cache K V} (hnew : new o = .ok c)
    (hpol : o.policy = .lru) (hcost : o.missCost = none) (hadmission : o.admission = none) (es : List (Event K V))
    (hok : Meets (fun c ev => (step c ev).1) TimesOk c es) :
    Always beside Agrees (c, ⟨c.toConfig, [], none⟩) es ∧
      Meets beside Answers (c, ⟨c.toConfig, [], none⟩) es := by
  have hok' : Meets beside (fun s ev => TimesOk s.1 ev) (c, ⟨c.toConfig, [], none⟩) es :=
    Meets.of_part Prod.fst (fun _ _ => rfl) hok
  have hstart := Together.new hnew hpol hcost hadmission
  have hall : Always beside Together (c, ⟨c.toConfig, [], none⟩) es :=
    always_of_meets (fun _ _ h hok => h.step hok) hstart hok'
  exact ⟨hall.mono fun s h => h.agrees,
    hok'.imp (fun _ _ h hok => h.step hok) (fun _ _ h hok => h.answers hok) hstart⟩

/-- Two entries at most, used, expired, swept and evicted. -/
theorem lru_refines_churn :
    let c : Cache ℕ ℕ := initial { maxEntries := some 2 } (some 2) 2 none (some 1000)
    let es : List (Event ℕ ℕ) := [.set 1 10 (some (.ms 100)) none 5, .set 2 20 none none 6,
      .get 1 50, .set 3 30 (some .never) none 60, .getMany [(1, 61), (2, 62), (1, 105)] false,
      .set 1 11 (some (.ms 10)) none 110, .touch 3 none 0, .cleanupExpiredUpTo (some 1) 200,
      .entries .mru, .resize (some 1) none, .evict 1, .delete 1]
    Always beside Agrees (c, ⟨c.toConfig, [], none⟩) es ∧
      Meets beside Answers (c, ⟨c.toConfig, [], none⟩) es :=
  lru_refines (o := { maxEntries := some 2 }) rfl rfl rfl rfl _ (by decide +kernel)

/-- What is stored at 0 to expire at once is read ever after. -/
theorem zero_time_is_never :
    let c : Cache ℕ ℕ := initial {} none 1024 none (some 1000)
    new {} = .ok c ∧ ¬Meets beside Answers (c, ⟨c.toConfig, [], none⟩)
      [.set 1 10 (some (.ms 0)) none 0, .get 1 5] := by
  refine ⟨rfl, fun h => ?_⟩
  have hout := h.2.1.outcome
  revert hout
  decide +kernel

end PerformanceHelpers.PowerCache
