import PerformanceHelpers.PowerCache.Reference

/- What the reference model of an LRU cache promises: no call takes it beyond its
   limits, no read returns an expired value, and what a write evicts is what was
   used longest ago. -/
namespace PerformanceHelpers.PowerCache.Recency

variable {K V : Type} [DecidableEq K]

/-! ## The limits -/

structure Within (m : Recency K V) : Prop where
  maxEntries : ∀ n ∈ m.config.maxEntries, 0 ≤ n
  maxWeight : ∀ w ∈ m.config.maxWeight, 0 ≤ w
  weights : ∀ e ∈ m.entries, 0 ≤ e.weight
  fits : m.overLimit = false

variable {m m' : Recency K V} {e e' : Entry K V} {key : K} {now : ℚ}

section
omit [DecidableEq K]

theorem fits_iff : m.overLimit = false ↔
    (∀ n ∈ m.config.maxEntries, (m.entries.length : ℚ) ≤ n) ∧
      ∀ w ∈ m.config.maxWeight, m.totalWeight ≤ w := by
  cases hn : m.config.maxEntries <;> cases hw : m.config.maxWeight <;>
    simp [overLimit, hn, hw]

/-- Fewer entries, or lighter ones, still fit. -/
theorem Within.of_subperm (h : Within m) (hconfig : m'.config = m.config)
    (hsub : (m'.entries.map Entry.weight).Subperm (m.entries.map Entry.weight)) : Within m' := by
  have hpos : ∀ w ∈ m.entries.map Entry.weight, 0 ≤ w := by
    intro w hw
    obtain ⟨e, he, rfl⟩ := List.mem_map.mp hw
    exact h.weights e he
  obtain ⟨ws, hperm, hws⟩ := hsub
  have hlen : m'.entries.length ≤ m.entries.length := by
    have hle := hws.length_le
    rwa [hperm.length_eq, List.length_map, List.length_map] at hle
  have hsum : m'.totalWeight ≤ m.totalWeight := by
    rw [totalWeight, totalWeight, ← hperm.sum_eq]
    exact hws.sum_le_sum hpos
  have hfits := fits_iff.mp h.fits
  rw [← hconfig] at hfits
  refine ⟨hconfig ▸ h.maxEntries, hconfig ▸ h.maxWeight, fun e he => ?_, fits_iff.mpr ⟨?_, ?_⟩⟩
  · have hmem : e.weight ∈ ws := hperm.mem_iff.mpr (List.mem_map_of_mem he)
    exact hpos e.weight (hws.subset hmem)
  · intro n hn
    exact le_trans (Nat.cast_le.mpr hlen) (hfits.1 n hn)
  · intro w hw
    exact le_trans hsum (hfits.2 w hw)

theorem Within.of_sublist (h : Within m) (hconfig : m'.config = m.config)
    (hsub : m'.entries.Sublist m.entries) : Within m' :=
  h.of_subperm hconfig (hsub.map Entry.weight).subperm

end

protected theorem Within.remove (h : Within m) : Within (m.remove key) :=
  h.of_sublist rfl List.filter_sublist

/-- An entry that is used, or given another time, weighs what it did. -/
theorem Within.put (h : Within m) (he : e ∈ m.entries) (hkey : e'.key = e.key)
    (hweight : e'.weight = e.weight) : Within (m.put e') := by
  refine h.of_subperm rfl ?_
  obtain ⟨les, res, hm⟩ := List.append_of_mem he
  have hsub : (without m.entries e'.key).Sublist (les ++ res) := by
    rw [without, hm, List.filter_append, List.filter_cons_of_neg (by simp [hkey])]
    exact List.filter_sublist.append List.filter_sublist
  have hperm : (m.entries.map Entry.weight).Perm
      ((les ++ res).map Entry.weight ++ [e.weight]) := by
    rw [hm]
    simp only [List.map_append, List.map_cons, List.append_assoc]
    exact (List.perm_append_singleton e.weight (res.map Entry.weight)).symm.append_left _
  have hput : (m.put e').entries.map Entry.weight =
      (without m.entries e'.key).map Entry.weight ++ [e.weight] := by
    simp [Recency.put, hweight]
  rw [hput]
  exact ((hsub.map Entry.weight).append_right _).subperm.trans hperm.symm.subperm

theorem find_mem (h : m.find key = some e) : e ∈ m.entries ∧ e.key = key :=
  ⟨List.mem_of_find?_eq_some h, by simpa using List.find?_some h⟩

@[simp] theorem dropOldest_config : m.dropOldest.config = m.config := by
  unfold dropOldest
  split <;> rfl

theorem dropOldest_sublist : m.dropOldest.entries.Sublist m.entries := by
  unfold dropOldest
  split
  · exact List.Sublist.refl _
  · exact List.filter_sublist

theorem dropOldest_length (h : m.entries ≠ []) :
    m.dropOldest.entries.length < m.entries.length := by
  unfold dropOldest
  cases hm : m.entries with
  | nil => exact absurd hm h
  | cons e es =>
    have hself : without (e :: es) e.key = without es e.key := List.filter_cons_of_neg (by simp)
    simp only [Recency.remove, hm, hself]
    exact Nat.lt_succ_of_le (List.length_filter_le _ _)

variable {n : ℕ} {found : List (K × Option V)} {ign : Bool}

theorem shrink_config : (shrink n m).config = m.config := by
  induction n generalizing m with
  | zero => rfl
  | succ n ih =>
    rw [shrink]
    split
    · rw [ih, dropOldest_config]
    · rfl

theorem shrink_sublist : (shrink n m).entries.Sublist m.entries := by
  induction n generalizing m with
  | zero => exact List.Sublist.refl _
  | succ n ih =>
    rw [shrink]
    split
    · exact ih.trans dropOldest_sublist
    · exact List.Sublist.refl _

/-- Enough turns bring the entries within limits that are not negative. -/
theorem shrink_fits (hentries : ∀ n ∈ m.config.maxEntries, 0 ≤ n)
    (hweight : ∀ w ∈ m.config.maxWeight, 0 ≤ w) (hn : m.entries.length ≤ n) :
    (shrink n m).overLimit = false := by
  have hempty : m.entries = [] → m.overLimit = false := by
    intro hm
    rw [fits_iff, totalWeight, hm]
    exact ⟨by simpa using hentries, by simpa using hweight⟩
  induction n generalizing m with
  | zero => exact hempty (List.length_eq_zero_iff.mp (Nat.le_zero.mp hn))
  | succ n ih =>
    rw [shrink]
    split
    · next hover =>
      have hne : m.entries ≠ [] := fun hm => by simp [hempty hm] at hover
      have hlt := dropOldest_length hne
      refine ih (by simpa using hentries) (by simpa using hweight) (by omega) fun hm => ?_
      rw [fits_iff, totalWeight, hm, dropOldest_config]
      exact ⟨by simpa using hentries, by simpa using hweight⟩
    · next hover => simpa using hover

protected theorem Within.evictIfNeeded (hentries : ∀ n ∈ m.config.maxEntries, 0 ≤ n)
    (hweight : ∀ w ∈ m.config.maxWeight, 0 ≤ w) (hweights : ∀ e ∈ m.entries, 0 ≤ e.weight) :
    Within m.evictIfNeeded where
  maxEntries := by rwa [Recency.evictIfNeeded, shrink_config]
  maxWeight := by rwa [Recency.evictIfNeeded, shrink_config]
  weights := fun e he => hweights e (shrink_sublist.subset he)
  fits := shrink_fits hentries hweight le_rfl

theorem Within.read (h : Within m) : Within (m.read key now).1 := by
  unfold Recency.read
  split
  · exact h
  · split
    · exact h.remove
    · exact h

theorem read_some (h : m.read key now = (m', some e)) :
    m' = m ∧ e ∈ m.entries ∧ e.key = key ∧ e.expired now = false := by
  unfold Recency.read at h
  cases hfind : m.find key with
  | none => simp [hfind] at h
  | some e' =>
    simp only [hfind] at h
    cases hexp : e'.expired now with
    | true => simp [hexp] at h
    | false =>
      simp only [hexp, Bool.false_eq_true, if_false, Prod.mk.injEq, Option.some.injEq] at h
      obtain ⟨rfl, rfl⟩ := h
      exact ⟨rfl, (find_mem hfind).1, (find_mem hfind).2, hexp⟩

theorem readUnless_some (h : m.readUnless key ign now = (m', some e)) :
    m' = m ∧ e ∈ m.entries ∧ e.key = key ∧ (ign = false → e.expired now = false) := by
  cases ign with
  | true =>
    simp only [readUnless, if_true, Prod.mk.injEq] at h
    exact ⟨h.1.symm, (find_mem h.2).1, (find_mem h.2).2, by simp⟩
  | false =>
    obtain ⟨hm, he, hkey, hexp⟩ := read_some h
    exact ⟨hm, he, hkey, fun _ => hexp⟩

theorem Within.readUnless (h : Within m) :
    Within (m.readUnless key ign now).1 := by
  cases ign with
  | true => exact h
  | false => exact h.read

protected theorem Within.get (h : Within m) : Within (m.get key now).1 := by
  unfold Recency.get
  cases hread : m.read key now with
  | mk m' found =>
    have h' : Within (m.read key now).1 := h.read
    rw [hread] at h'
    cases found with
    | none => exact h'
    | some e =>
      obtain ⟨rfl, he, -⟩ := read_some hread
      exact h.put he rfl rfl

protected theorem Within.getManyOne {q : K × ℚ} (h : Within m) :
    Within (Recency.getManyOne ign (m, found) q).1 := by
  unfold Recency.getManyOne
  cases hread : m.readUnless q.1 ign q.2 with
  | mk m' e =>
    have h' : Within (m.readUnless q.1 ign q.2).1 := h.readUnless
    rw [hread] at h'
    cases e with
    | none => exact h'
    | some e =>
      obtain ⟨rfl, he, -⟩ := readUnless_some hread
      exact h.put he rfl rfl

theorem Within.getMany {keys : List (K × ℚ)}
    (h : Within m) : Within (keys.foldl (Recency.getManyOne ign) (m, found)).1 := by
  induction keys generalizing m found with
  | nil => exact h
  | cons q keys ih => exact ih h.getManyOne

theorem weights_setManyOne (o : Option ℚ) (weight : Option Weight) (p : K × V)
    (h : ∀ e ∈ m.entries, 0 ≤ e.weight) : ∀ e ∈ (m.setManyOne o weight p).entries, 0 ≤ e.weight := by
  simp only [setManyOne]
  split
  · exact h
  · intro e he
    rcases List.mem_append.mp he with he | he
    · exact h e (List.mem_of_mem_filter he)
    · obtain rfl := List.mem_singleton.mp he
      exact computeWeight_nonneg _ _ _

theorem weights_setMany (o : Option ℚ) (weight : Option Weight) (entries : List (K × V))
    (h : ∀ e ∈ m.entries, 0 ≤ e.weight) :
    (entries.foldl (setManyOne o weight) m).config = m.config ∧
      ∀ e ∈ (entries.foldl (setManyOne o weight) m).entries, 0 ≤ e.weight := by
  induction entries generalizing m with
  | nil => exact ⟨rfl, h⟩
  | cons p entries ih =>
    obtain ⟨hconfig, hweights⟩ := ih (weights_setManyOne o weight p h)
    exact ⟨hconfig.trans setManyOne_config, hweights⟩

theorem Within.dropOldest (h : Within m) : Within m.dropOldest :=
  h.of_sublist dropOldest_config dropOldest_sublist

protected theorem Within.invalidate {doomed : List (Entry K V)} (h : Within m) :
    Within (doomed.foldl (fun m e => m.remove e.key) m) := by
  induction doomed generalizing m with
  | nil => exact h
  | cons e doomed ih => exact ih h.remove

theorem cleanup_sublist {maxScan : Option ℚ} :
    (m.cleanupExpiredUpTo maxScan now).1.entries.Sublist m.entries := by
  have hsplit : m.entries = m.atCursor.1 ++ m.atCursor.2 := by
    unfold atCursor
    cases m.cursor with
    | none => rfl
    | some key =>
      simp only [List.span_eq_takeWhile_dropWhile]
      exact List.takeWhile_append_dropWhile.symm
  unfold cleanupExpiredUpTo
  conv_rhs => rw [hsplit, ← List.take_append_drop (scanned maxScan m.atCursor.2.length) m.atCursor.2]
  exact (List.filter_sublist.append_right _).append_left _

/-- No call takes the model beyond its limits. -/
protected theorem Within.step (h : Within m) (ev : Event K V) : Within (m.step ev).1 := by
  cases ev with
  | set key value ttl weight now =>
    simp only [Recency.step, Recency.set]
    cases expiry (ttl.getD m.config.defaultTTL) now with
    | error err => exact h
    | ok o =>
      have hconfig : (m.setManyOne o weight (key, value)).config = m.config :=
        setManyOne_config
      show Within (settleCall m (if _ then _ else _) _).1
      split
      · exact h
      · exact Within.evictIfNeeded (hconfig ▸ h.maxEntries) (hconfig ▸ h.maxWeight)
          (weights_setManyOne o weight (key, value) h.weights)
  | setMany entries ttl weight now =>
    simp only [Recency.step, Recency.setMany]
    cases expiry (ttl.getD .never) now with
    | error err => exact h
    | ok o =>
      obtain ⟨hconfig, hweights⟩ :=
        weights_setMany o weight entries h.weights
      exact Within.evictIfNeeded (hconfig ▸ h.maxEntries) (hconfig ▸ h.maxWeight) hweights
  | get key now => exact h.get
  | peek key now => exact h.read
  | has key ign now => exact h.readUnless
  | getMany keys ign => exact h.getMany
  | touch key ttl now =>
    simp only [Recency.step, Recency.touch]
    cases hread : m.read key now with
    | mk m' found =>
      have h' : Within (m.read key now).1 := h.read
      rw [hread] at h'
      cases found with
      | none => exact h'
      | some e =>
        obtain ⟨rfl, he, -⟩ := read_some hread
        cases ttl with
        | none => exact h.put he rfl rfl
        | some ttl =>
          cases htime : expiry ttl now with
          | error err =>
            simp only [htime]
            exact h
          | ok o =>
            simp only [htime]
            exact h.put he rfl rfl
  | delete key =>
    simp only [Recency.step, Recency.delete]
    split
    · exact h
    · exact h.remove
  | evict n =>
    simp only [Recency.step, Recency.evict]
    split
    · exact h
    · exact Function.Iterate.rec Within h (fun _ => Within.dropOldest) n.toNat
  | invalidate p => exact h.invalidate
  | getOrSetAsync key swr now =>
    simp only [Recency.step, Recency.getOrSetAsync]
    split
    · exact h
    · next e hfind =>
      split
      · exact h.remove
      · exact h.put (find_mem hfind).1 rfl rfl
  | finishFetch key abort => exact h
  | resize maxEntries maxWeight =>
    have hnonneg : ∀ {old new : Option ℚ}, (∀ n ∈ old, 0 ≤ n) →
        ∀ n ∈ new.elim old fun n => some (max 0 n), 0 ≤ n := by
      intro old new hold
      cases new with
      | none => exact hold
      | some n =>
        intro n' hn'
        obtain rfl := Option.mem_some_iff.mp hn'
        exact le_max_left _ _
    have hfits : Within (Recency.evictIfNeeded { m with config := { m.config with
        maxEntries := maxEntries.elim m.config.maxEntries fun n => some (max 0 n)
        maxWeight := maxWeight.elim m.config.maxWeight fun w => some (max 0 w) } }) :=
      Within.evictIfNeeded (hnonneg h.maxEntries) (hnonneg h.maxWeight) h.weights
    exact hfits.of_sublist rfl (List.Sublist.refl _)
  | cleanupExpiredUpTo maxScan now => exact h.of_sublist rfl cleanup_sublist
  | entries order => exact h

/-! ## What is read and what is evicted -/

/-- What a read returns was stored under its key, and had not expired. -/
def Fresh (m : Recency K V) : Event K V → Outcome K V → Prop
  | .get key now, .value (some v) | .peek key now, .value (some v) =>
    ∃ e ∈ m.entries, e.key = key ∧ e.value = v ∧ e.expired now = false
  | .has key false now, .flag true | .touch key _ now, .flag true =>
    ∃ e ∈ m.entries, e.key = key ∧ e.expired now = false
  | .getMany keys false, .values found =>
    ∀ p ∈ found, ∃ e ∈ m.entries, e.key = p.1 ∧ p.2 = some e.value ∧
      ∃ now, (p.1, now) ∈ keys ∧ e.expired now = false
  | _, _ => True

def KeepsNewest (m m' : Recency K V) : Event K V → Prop
  | .set key value _ _ _ => m' = m ∨
    ∃ e, e.key = key ∧ e.value = value ∧ m'.entries <:+ (m.put e).entries
  | .resize _ _ => m'.entries <:+ m.entries
  | .evict n => m'.entries = m.entries.drop n.toNat
  | _ => True

theorem mapSet_mem {v : Option V} {p : K × Option V}
    (h : p ∈ mapSet found key v) : p ∈ found ∨ p = (key, v) := by
  unfold mapSet at h
  split at h
  · obtain ⟨p', hp', rfl⟩ := List.mem_map.mp h
    split
    · exact Or.inr rfl
    · exact Or.inl hp'
  · exact (List.mem_append.mp h).imp_right List.mem_singleton.mp

theorem read_sublist : (m.read key now).1.entries.Sublist m.entries := by
  unfold Recency.read
  split
  · exact List.Sublist.refl _
  · split
    · exact List.filter_sublist
    · exact List.Sublist.refl _

theorem fresh_getMany {all keys : List (K × ℚ)}
    (hkeys : ∀ q ∈ keys, q ∈ all) (hsub : ∀ e ∈ m'.entries, e ∈ m.entries)
    (hfound : Fresh m (.getMany all false) (.values found)) :
    Fresh m (.getMany all false)
      (.values (keys.foldl (Recency.getManyOne false) (m', found)).2) := by
  induction keys generalizing m' found with
  | nil => exact hfound
  | cons q keys ih =>
    have hkeys' := fun q' hq' => hkeys q' (List.mem_cons_of_mem q hq')
    cases hread : m'.readUnless q.1 false q.2 with
    | mk m'' e =>
      cases e with
      | none =>
        have hone : Recency.getManyOne false (m', found) q = (m'', found) := by
          simp only [Recency.getManyOne, hread]
        have hm'' : (m'.read q.1 q.2).1 = m'' := congrArg Prod.fst hread
        rw [List.foldl_cons, hone]
        exact ih hkeys' (fun e he => hsub e (read_sublist.subset (hm'' ▸ he))) hfound
      | some e =>
        obtain ⟨rfl, he, hkey, hexp⟩ := readUnless_some hread
        have hone : Recency.getManyOne false (m'', found) q =
            (m''.put e, mapSet found q.1 (some e.value)) := by
          simp only [Recency.getManyOne, hread]
        rw [List.foldl_cons, hone]
        refine ih hkeys' (fun e' he' => hsub e' ?_) fun p hp => ?_
        · rcases List.mem_append.mp he' with he' | he'
          · exact List.mem_of_mem_filter he'
          · exact List.mem_singleton.mp he' ▸ he
        · rcases mapSet_mem hp with hp | rfl
          · exact hfound p hp
          · exact ⟨e, hsub e he, hkey, rfl, q.2, hkeys q List.mem_cons_self, hexp rfl⟩

/-- No read of the model returns an expired value. -/
theorem fresh_step (m : Recency K V) (ev : Event K V) : Fresh m ev (m.step ev).2 := by
  cases ev with
  | get key now =>
    simp only [step, Recency.get]
    cases hread : m.read key now with
    | mk m' found =>
      cases found with
      | none => trivial
      | some e =>
        obtain ⟨-, he, hkey, hexp⟩ := read_some hread
        exact ⟨e, he, hkey, rfl, hexp⟩
  | peek key now =>
    simp only [step]
    cases hread : m.read key now with
    | mk m' found =>
      cases found with
      | none => trivial
      | some e =>
        obtain ⟨-, he, hkey, hexp⟩ := read_some hread
        exact ⟨e, he, hkey, rfl, hexp⟩
  | has key ign now =>
    simp only [step]
    cases ign with
    | true => trivial
    | false =>
      cases hread : m.readUnless key false now with
      | mk m' found =>
        cases found with
        | none => trivial
        | some e =>
          obtain ⟨-, he, hkey, hexp⟩ := readUnless_some hread
          exact ⟨e, he, hkey, hexp rfl⟩
  | getMany keys ign =>
    cases ign with
    | true => trivial
    | false =>
      have hnone : Fresh m (.getMany keys false) (.values []) := fun p hp => nomatch hp
      exact fresh_getMany (fun _ hq => hq) (fun _ he => he) hnone
  | touch key ttl now =>
    simp only [step, Recency.touch]
    cases hread : m.read key now with
    | mk m' found =>
      cases found with
      | none => trivial
      | some e =>
        obtain ⟨rfl, he, hkey, hexp⟩ := read_some hread
        cases ttl with
        | none => exact ⟨e, he, hkey, hexp⟩
        | some ttl =>
          cases htime : expiry ttl now with
          | error err =>
            simp only [htime]
            trivial
          | ok o =>
            simp only [htime]
            exact ⟨e, he, hkey, hexp⟩
  | _ => trivial

def Distinct (m : Recency K V) : Prop := (m.entries.map Entry.key).Nodup

section
variable (h : Distinct m)
include h

theorem Distinct.dropOldest_entries : m.dropOldest.entries = m.entries.tail := by
  unfold Recency.dropOldest
  cases hm : m.entries with
  | nil => simp [hm]
  | cons e es =>
    have hnd : e.key ∉ es.map Entry.key := by
      rw [Distinct, hm, List.map_cons, List.nodup_cons] at h
      exact h.1
    have habsent : ∀ e' ∈ [] ++ es, e'.key ≠ e.key :=
      fun e' he' heq => hnd (heq ▸ List.mem_map_of_mem he')
    show (m.remove e.key).entries = es
    rw [remove_split hm habsent]
    rfl

theorem Distinct.dropOldest : Distinct m.dropOldest := by
  rw [Distinct, h.dropOldest_entries, List.map_tail]
  exact List.Nodup.tail h

theorem Distinct.iterate_dropOldest (n : ℕ) :
    (Recency.dropOldest^[n] m).entries = m.entries.drop n := by
  induction n generalizing m with
  | zero => rfl
  | succ n ih =>
    rw [Function.iterate_succ_apply, ih h.dropOldest, h.dropOldest_entries, List.drop_tail]

theorem Distinct.shrink_suffix : (shrink n m).entries <:+ m.entries := by
  induction n generalizing m with
  | zero => exact List.suffix_refl _
  | succ n ih =>
    rw [shrink]
    split
    · refine (ih h.dropOldest).trans ?_
      rw [h.dropOldest_entries]
      exact List.tail_suffix _
    · exact List.suffix_refl _

theorem Distinct.put : Distinct (m.put e) := by
  have hsub : ((without m.entries e.key).map Entry.key).Nodup :=
    List.Nodup.sublist (List.filter_sublist.map _) h
  rw [Distinct, Recency.put, List.map_append]
  refine List.Nodup.append hsub (by simp) ?_
  intro key hkey hkey'
  obtain ⟨e', he', rfl⟩ := List.mem_map.mp hkey
  have heq : e'.key = e.key := by simpa using hkey'
  have hne := (List.mem_filter.mp he').2
  simp [heq] at hne

/-- The victims of a write are the oldest entries. -/
theorem Distinct.keepsNewest (ev : Event K V) :
    KeepsNewest m (m.step ev).1 ev := by
  cases ev with
  | set key value ttl weight now =>
    simp only [KeepsNewest, step, Recency.set]
    cases expiry (ttl.getD m.config.defaultTTL) now with
    | error err => exact Or.inl rfl
    | ok o =>
      simp only [Recency.setManyOne]
      cases m.oversized (computeWeight m.config.weightFn value weight) with
      | true => exact Or.inl rfl
      | false => exact Or.inr ⟨_, rfl, rfl, h.put.shrink_suffix⟩
  | resize maxEntries maxWeight =>
    exact Distinct.shrink_suffix (m := { m with config := { m.config with
      maxEntries := maxEntries.elim m.config.maxEntries fun n => some (max 0 n)
      maxWeight := maxWeight.elim m.config.maxWeight fun w => some (max 0 w) } }) h
  | evict n =>
    simp only [KeepsNewest, step, Recency.evict]
    split
    · next hn =>
      rw [Int.toNat_of_nonpos hn.le, List.drop_zero]
      rfl
    · exact h.iterate_dropOldest n.toNat
  | _ => trivial

end

end PerformanceHelpers.PowerCache.Recency
