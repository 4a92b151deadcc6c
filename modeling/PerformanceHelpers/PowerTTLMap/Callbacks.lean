import PerformanceHelpers.PowerTTLMap

/- `PowerTTLMap` with an `onExpire` that calls the map (`src/helpers/powerTTLMap.js`).

   A callback runs in the middle of the call that expires its key: `get`, `has` and `touch` are
   done when it returns, and `_sweepExpirations` goes on with the index as the callback left it.
   What waits for a callback is a frame, and the callback's own calls come before the event that
   says it has returned.

   A sweep goes along the index with an iterator of a JavaScript map. It passes each entry once, in
   their order: an entry that is deleted and set again is a new one, at the end, and one that is
   set again where it stands is not passed a second time. -/
namespace PerformanceHelpers.PowerTTLMap

/-- `_sweepExpirations` in progress: its reading, the soonest expiry it found, and the keys of the
entries it has passed. -/
structure Sweep (α K : Type) where
  now : K
  nextExpiryAt : K
  passed : List (Option α)
  deriving DecidableEq

inductive Frame (α K : Type) where
  | sweep (f : Sweep α K)
  | done
  deriving DecidableEq

/-- The map, and what waits for the callbacks that run, the innermost first. -/
structure Running (α V K : Type) where
  ttlMap : TTLMap α V K
  frames : List (Frame α K)
  deriving DecidableEq

inductive Event (α V K : Type) where
  | call (op : Op α V K)
  | returns
  deriving DecidableEq

section
variable {α V K : Type} [DecidableEq α] [LinearOrder K] [Add K] [Zero K] [One K]

/-- `expiredCount`, which reads the clock as `purge` does. -/
def expiredCount (m : TTLMap α V K) (now now' : K) : ℕ :=
  if m.map.length = 0 ∨ m.expirations.length = 0 then 0
  else if m.nextExpiryAt ≠ 0 ∧ m.nextExpiryDirty = false ∧ now < m.nextExpiryAt then 0
  else m.expirations.countP fun e => decide (e.2 ≠ 0 ∧ e.2 < now')

/-- `_sweepExpirations` along the entries it has not passed, up to its end or to the next
callback. -/
def sweepOn (m : TTLMap α V K) (f : Sweep α K) : List (Option α × K) → TTLMap α V K × Option (Sweep α K)
  | [] => ({ m with nextExpiryAt := f.nextExpiryAt, nextExpiryDirty := false }, none)
  | (k, exp) :: rest =>
    if exp ≠ 0 ∧ exp < f.now then
      match EntryMap.get k m.map with
      | some entry => (expireKey m k entry, some f)
      | none => sweepOn m { f with passed := f.passed ++ [k] } rest
    else if exp ≠ 0 ∧ (f.nextExpiryAt = 0 ∨ exp < f.nextExpiryAt) then
      sweepOn m { f with nextExpiryAt := exp, passed := f.passed ++ [k] } rest
    else sweepOn m { f with passed := f.passed ++ [k] } rest

def unpassed (m : TTLMap α V K) (f : Sweep α K) : List (Option α × K) :=
  m.expirations.filter fun e => !f.passed.contains e.1

/-- A sweep starts, or goes on after a callback. -/
def resume (m : TTLMap α V K) (f : Sweep α K) : TTLMap α V K × Option (Sweep α K) :=
  sweepOn m f (unpassed m f)

/-- A sweep after something was done to the map, which took the keys `again` out of the index and
set them again. -/
def Sweep.after (m' : TTLMap α V K) (again : List (Option α)) (f : Sweep α K) : Sweep α K :=
  { f with passed := f.passed.filter fun k => (m'.expirations.map Prod.fst).contains k && !again.contains k }

def Frame.after (m' : TTLMap α V K) (again : List (Option α)) : Frame α K → Frame α K
  | .sweep f => .sweep (f.after m' again)
  | .done => .done

/-- A call; `dispose` neutralises `clear`. -/
def invoke (m : TTLMap α V K) : Op α V K → TTLMap α V K
  | .clear => if m.disposed = true then m else clear m
  | op => call m op

/-- The keys that a call takes out of the index and sets again: a map with a `maxSize` does so with
every key that is used. -/
def again (m : TTLMap α V K) (op : Op α V K) : List (Option α) := if 0 < m.maxSize then used m op else []

def resumed (s : Running α V K) : Event α V K → Option (Sweep α K)
  | .call (.purge now now') => if (purge s.ttlMap now now').2 ≠ 0 then some ⟨now', 0, []⟩ else none
  | .call _ => none
  | .returns => match s.frames with
    | .sweep f :: _ => some f
    | _ => none

def waiting (s : Running α V K) : Event α V K → List (Frame α K)
  | .call _ => s.frames
  | .returns => s.frames.tail

/-- An event: a call from outside or from a callback, or a callback returns. A call that expires a
key starts the callback. -/
def Running.step (s : Running α V K) (e : Event α V K) : Running α V K :=
  match resumed s e with
  | some f =>
    let (m', f') := resume s.ttlMap f
    ⟨m', (f'.map .sweep).toList ++ (waiting s e).map (Frame.after m' [])⟩
  | none => match e with
    | .call (.purge _ _) => s
    | .call op =>
      let m' := invoke s.ttlMap op
      let callback := if m'.expired.length = s.ttlMap.expired.length then [] else [.done]
      ⟨m', callback ++ s.frames.map (Frame.after m' (again s.ttlMap op))⟩
    | .returns => { s with frames := waiting s .returns }

def Running.start (o : Options K) : Running α V K := ⟨new o, []⟩

/-! ## What is asked -/

/-- The last reading that `expiredCount` and `purge` take. -/
def reading (m : TTLMap α V K) (now now' : K) : K :=
  if m.nextExpiryAt ≠ 0 ∧ m.nextExpiryDirty = false ∧ now < m.nextExpiryAt then now else now'

def expiredAt (m : TTLMap α V K) (now : K) : ℕ := m.map.countP fun e => decide (Expired e.2 now)

/-- The shortcut of `expiredCount` and `purge` is taken only when nothing has expired. -/
structure ShortcutSound (m : TTLMap α V K) : Prop where
  bound : m.nextExpiryDirty = false → ∀ e ∈ m.expirations, m.nextExpiryAt ≤ e.2
  reports : ∀ now now', expiredCount m now now' = expiredAt m (reading m now now')
  counts : ∀ now now', (purge m now now').2 = expiredAt m (reading m now now')

/-- `purge` itself takes out only entries that are expired at its reading, and when it is done no
other is left. -/
def Collects (s : Running α V K) (e : Event α V K) : Prop :=
  ∀ f ∈ resumed s e,
    (∀ k, EntryMap.get k (s.step e).ttlMap.map = EntryMap.get k s.ttlMap.map ∨
      EntryMap.get k (s.step e).ttlMap.map = none ∧
        ∃ entry ∈ EntryMap.get k s.ttlMap.map, Expired entry f.now) ∧
    ((resume s.ttlMap f).2 = none →
      ∀ k, ∀ entry ∈ EntryMap.get k (s.step e).ttlMap.map, ¬Expired entry f.now)

def given (m : TTLMap α V K) : Op α V K → Option (Option α × K)
  | .set key _ ttl now => match resolveTtl ttl m.defaultTTL with
    | .ok ms => if m.disposed = false ∧ expiryOf ms now ≠ 0 then some (key, expiryOf ms now) else none
    | .error _ => none
  | .touch key ttl now now' => match resolveTtl ttl m.defaultTTL with
    | .ok ms => if Live m key now ∧ expiryOf ms now' ≠ 0 then some (key, expiryOf ms now') else none
    | .error _ => none
  | _ => none

/-- A sweep has not passed the key of `p`, or has found no expiry after that of `p`. -/
def Frame.Spares (p : Option α × K) : Frame α K → Prop
  | .sweep f => p.1 ∈ f.passed → f.nextExpiryAt ≤ p.2
  | .done => True

instance (p : Option α × K) : ∀ f : Frame α K, Decidable (f.Spares p)
  | .sweep f => inferInstanceAs (Decidable (p.1 ∈ f.passed → f.nextExpiryAt ≤ p.2))
  | .done => isTrue trivial

/-- In a map without a `maxSize`, no call gives a key that a sweep has passed an expiry below the
soonest one the sweep has found. -/
def SparesPassed (s : Running α V K) : Event α V K → Prop
  | .call op => s.ttlMap.maxSize = 0 → ∀ p ∈ given s.ttlMap op, ∀ f ∈ s.frames, f.Spares p
  | .returns => True

instance (s : Running α V K) : ∀ e, Decidable (SparesPassed s e)
  | .call op => inferInstanceAs
    (Decidable (s.ttlMap.maxSize = 0 → ∀ p ∈ given s.ttlMap op, ∀ f ∈ s.frames, f.Spares p))
  | .returns => isTrue trivial

end

/-! ## What a call does to the index -/

section
variable {α V K : Type} [DecidableEq α] [LinearOrder K] [Add K] [Zero K] [One K]
  {m m' m'' : TTLMap α V K} {key : Option α}

structure Distinct (m : TTLMap α V K) : Prop where
  map : (m.map.map Prod.fst).Nodup
  expirations : (m.expirations.map Prod.fst).Nodup

/-- The soonest expiry is not after any other, and there is one when anything expires. -/
def Bounded (m : TTLMap α V K) : Prop :=
  m.nextExpiryDirty = false → ∀ k e, EntryMap.get k m.expirations = some e →
    m.nextExpiryAt ≠ 0 ∧ m.nextExpiryAt ≤ e

/-- A call may take expiries out of the index, and writes at most the one it gives. -/
structure Effect (m m' : TTLMap α V K) (w : Option (Option α × K)) : Prop where
  stored : ∀ k e, EntryMap.get k m'.expirations = some e →
    EntryMap.get k m.expirations = some e ∨ w = some (k, e)
  bounded : Bounded m → Bounded m'
  distinct : Distinct m → Distinct m'

namespace Effect

section
omit [Add K] [One K]

theorem refl (m : TTLMap α V K) (w : Option (Option α × K)) : Effect m m w :=
  ⟨fun _ _ h => Or.inl h, id, id⟩

theorem trans {w : Option (Option α × K)} (h : Effect m m' w) (h' : Effect m' m'' none) :
    Effect m m'' w := by
  refine ⟨fun k e hget => ?_, fun hb => h'.bounded (h.bounded hb), fun hd => h'.distinct (h.distinct hd)⟩
  rcases h'.stored k e hget with hget | hnone
  · exact h.stored k e hget
  · cases hnone

theorem of_sub (hstored : ∀ k e, EntryMap.get k m'.expirations = some e →
      EntryMap.get k m.expirations = some e)
    (hnext : m'.nextExpiryAt = m.nextExpiryAt)
    (hdirty : m'.nextExpiryDirty = false → m.nextExpiryDirty = false)
    (hdistinct : Distinct m → Distinct m') : Effect m m' none := by
  refine ⟨fun k e hget => Or.inl (hstored k e hget), fun hb hclean k e hget => ?_, hdistinct⟩
  rw [hnext]
  exact hb (hdirty hclean) k e (hstored k e hget)

theorem remove (hmap : m'.map = EntryMap.delete key m.map)
    (hexp : m'.expirations = EntryMap.delete key m.expirations)
    (hnext : m'.nextExpiryAt = m.nextExpiryAt)
    (hdirty : m'.nextExpiryDirty = false → m.nextExpiryDirty = false) : Effect m m' none := by
  refine of_sub (fun k e hget => ?_) hnext hdirty fun hd => ⟨?_, ?_⟩
  · rw [hexp, EntryMap.get_delete] at hget
    split at hget
    · cases hget
    · exact hget
  · rw [hmap, EntryMap.delete_keys]
    exact hd.map.filter _
  · rw [hexp, EntryMap.delete_keys]
    exact hd.expirations.filter _

theorem expireKey (m : TTLMap α V K) (key : Option α) (entry : Entry V K) :
    Effect m (expireKey m key entry) none :=
  remove rfl rfl rfl fun hclean => (Bool.or_eq_false_iff.mp hclean).1

theorem evict (m : TTLMap α V K) (key : Option α) : Effect m (evict m key) none := by
  refine remove rfl rfl rfl fun hclean => ?_
  unfold PowerTTLMap.evict at hclean
  dsimp only at hclean
  split at hclean
  · exact (Bool.or_eq_false_iff.mp hclean).1
  · exact hclean

theorem evictLoop (fuel : ℕ) (m : TTLMap α V K) : Effect m (evictLoop fuel m) none := by
  induction fuel generalizing m with
  | zero => exact refl m none
  | succ fuel ih =>
    rw [PowerTTLMap.evictLoop]
    split
    · exact refl m none
    · split
      · next k _ _ => exact (evict m (some k)).trans (ih _)
      · exact refl m none

theorem distinct_refresh (hd : Distinct m) (key : Option α) (entry : Entry V K) :
    Distinct (refresh m key entry) := by
  have hdelete {β : Type} (l : List (Option α × β)) (h : (l.map Prod.fst).Nodup) :
      ((EntryMap.delete key l).map Prod.fst).Nodup := by
    rw [EntryMap.delete_keys]
    exact h.filter _
  refine ⟨EntryMap.nodup_set (hdelete _ hd.map), ?_⟩
  unfold PowerTTLMap.refresh
  dsimp only
  split
  · split
    · exact EntryMap.nodup_set (hdelete _ hd.expirations)
    · exact hdelete _ hd.expirations
  · exact hd.expirations

theorem refresh_expirations (m : TTLMap α V K) (key : Option α) (entry : Entry V K) (k : Option α) :
    EntryMap.get k (refresh m key entry).expirations = EntryMap.get k m.expirations := by
  unfold PowerTTLMap.refresh
  dsimp only
  split
  · split
    · next ex hget =>
      rw [EntryMap.get_set, EntryMap.get_delete]
      by_cases hk : k = key
      · rw [if_pos hk, hk, hget]
      · rw [if_neg hk, if_neg hk]
    · next hget =>
      rw [EntryMap.get_delete]
      by_cases hk : k = key
      · rw [if_pos hk, hk, hget]
      · rw [if_neg hk]
  · rfl

theorem refresh (m : TTLMap α V K) (key : Option α) (entry : Entry V K) :
    Effect m (refresh m key entry) none :=
  of_sub (fun k _ hget => (refresh_expirations m key entry k).symm.trans hget) rfl id
    fun hd => distinct_refresh hd key entry

/-- An expiry that is written keeps the bound, once it was compared with the soonest one. -/
theorem write {e : K} (prevExpiry : K) (hstored : ∀ k e', EntryMap.get k m'.expirations = some e' →
      EntryMap.get k m.expirations = some e' ∨ k = key ∧ e' = e ∧ e ≠ 0)
    (hnext : m'.nextExpiryAt = m.nextExpiryAt) (hdirty : m'.nextExpiryDirty = m.nextExpiryDirty)
    (hdistinct : Distinct m → Distinct m') :
    Effect m (updateNextExpiryOnWrite m' prevExpiry e) (if e ≠ 0 then some (key, e) else none) := by
  have hexp := updateNextExpiryOnWrite_expirations (m := m') prevExpiry e
  refine ⟨fun k e' hget => ?_, fun hb hclean k e' hget => ?_, fun hd => ⟨?_, ?_⟩⟩
  · rw [hexp] at hget
    rcases hstored k e' hget with hold | ⟨rfl, rfl, hne⟩
    · exact Or.inl hold
    · exact Or.inr (if_pos hne)
  · rw [hexp] at hget
    have hclean' : m.nextExpiryDirty = false := by
      rw [← hdirty]
      unfold updateNextExpiryOnWrite at hclean
      grind
    have hold := hb hclean' k e'
    unfold updateNextExpiryOnWrite
    rcases hstored k e' hget with hget | ⟨rfl, rfl, hne⟩
    · obtain ⟨hne, hle⟩ := hold hget
      rw [← hnext] at hne hle
      grind
    · grind
  · rw [updateNextExpiryOnWrite_map]
    exact (hdistinct hd).map
  · rw [hexp]
    exact (hdistinct hd).expirations

theorem index_expirations (m : TTLMap α V K) (key : Option α) (e : K) (k : Option α) (e' : K)
    (hget : EntryMap.get k (index m key e).expirations = some e') :
    EntryMap.get k m.expirations = some e' ∨ k = key ∧ e' = e ∧ e ≠ 0 := by
  unfold index at hget
  dsimp only at hget
  split at hget
  · next hne =>
    rw [EntryMap.get_set] at hget
    split at hget
    · next hk => exact Or.inr ⟨hk, (Option.some.inj hget).symm, hne⟩
    · exact Or.inl hget
  · rw [EntryMap.get_delete] at hget
    split at hget
    · cases hget
    · exact Or.inl hget

theorem distinct_index (hd : Distinct m) (key : Option α) (entry : Entry V K) (e : K) :
    Distinct (index { m with map := EntryMap.set key entry m.map } key e) := by
  refine ⟨EntryMap.nodup_set hd.map, ?_⟩
  unfold index
  dsimp only
  split
  · exact EntryMap.nodup_set hd.expirations
  · rw [EntryMap.delete_keys]
    exact hd.expirations.filter _

end

section
variable (m : TTLMap α V K) (key : Option α)

theorem store (value : V) (ms now : K) :
    Effect m (store m key value ms now)
      (if expiryOf ms now ≠ 0 then some (key, expiryOf ms now) else none) := by
  unfold PowerTTLMap.store
  dsimp only
  generalize expiryOf ms now = e
  let m₁ := index { m with map := EntryMap.set key ⟨value, e⟩ m.map } key e
  have hstored := index_expirations { m with map := EntryMap.set key ⟨value, e⟩ m.map } key e
  have hdistinct (hd : Distinct m) : Distinct m₁ := distinct_index hd key ⟨value, e⟩ e
  have hwrite : Effect m (updateNextExpiryOnWrite
      (if (EntryMap.get key m.map).isNone = false ∧ 0 < m.maxSize then PowerTTLMap.refresh m₁ key ⟨value, e⟩
        else m₁) ((EntryMap.get key m.expirations).getD 0) e) (if e ≠ 0 then some (key, e) else none) := by
    split
    · refine write _ (fun k e' hget => ?_) rfl rfl fun hd => distinct_refresh (hdistinct hd) key _
      rw [refresh_expirations] at hget
      exact hstored k e' hget
    · exact write _ hstored rfl rfl hdistinct
  split
  · exact hwrite.trans (evictLoop _ _)
  · exact hwrite

theorem touch (ttl : Ttl K) (now now' : K) :
    Effect m (touch m key ttl now now').1 (given m (.touch key ttl now now')) := by
  unfold PowerTTLMap.touch given
  cases hget : EntryMap.get key m.map with
  | none => exact refl m _
  | some entry =>
    dsimp only
    by_cases hexp : Expired entry now
    · rw [if_pos hexp]
      have hdead : ¬Live m key now := fun h => (live_iff hget now).mp h hexp
      have hnone : (match resolveTtl ttl m.defaultTTL with
          | .ok ms => if Live m key now ∧ expiryOf ms now' ≠ 0 then some (key, expiryOf ms now') else none
          | .error _ => none) = none := by
        split
        · exact if_neg fun h => hdead h.1
        · rfl
      rw [hnone]
      exact expireKey m key entry
    · rw [if_neg hexp]
      cases hms : resolveTtl ttl m.defaultTTL with
      | error e => exact refl m _
      | ok ms =>
        have hlive : Live m key now := (live_iff hget now).mpr hexp
        dsimp only
        generalize expiryOf ms now' = e
        have hwrite := write (m := m) entry.expiresAt
          (index_expirations { m with map := EntryMap.set key ⟨entry.value, e⟩ m.map } key e) rfl rfl
          fun hd => distinct_index hd key ⟨entry.value, e⟩ e
        simp only [hlive, true_and]
        split
        · exact hwrite.trans (refresh _ _ _)
        · exact hwrite

theorem set (value : V) (ttl : Ttl K) (now : K) :
    Effect m (set m key value ttl now).1 (given m (.set key value ttl now)) := by
  unfold PowerTTLMap.set given
  by_cases hdisposed : m.disposed = true
  · rw [if_pos hdisposed]
    exact refl m _
  · rw [if_neg hdisposed]
    cases hms : resolveTtl ttl m.defaultTTL with
    | error e => exact refl m _
    | ok ms =>
      have hopen : m.disposed = false := Bool.eq_false_iff.mpr hdisposed
      simp only [hms, hopen, true_and]
      exact store m key value ms now

end

section
omit [Add K] [One K]

section
variable (m : TTLMap α V K) (key : Option α)

theorem get (now : K) : Effect m (get m key now).1 none := by
  unfold PowerTTLMap.get
  split
  · exact refl m none
  · split
    · exact expireKey m key _
    · split
      · exact refresh m key _
      · exact refl m none

theorem has (now : K) : Effect m (has m key now).1 none := by
  unfold PowerTTLMap.has
  split
  · exact refl m none
  · split
    · exact expireKey m key _
    · exact refl m none

theorem delete : Effect m (delete m key).1 none :=
  remove rfl rfl rfl fun hclean => (Bool.or_eq_false_iff.mp hclean).1

end

end

omit [DecidableEq α] [LinearOrder K] [Add K] [One K] in
theorem clear [DecidableEq α] [LinearOrder K] (m : TTLMap α V K) : Effect m (clear m) none := by
  refine ⟨fun k e hget => ?_, fun _ _ k e hget => ?_, fun _ => ⟨List.nodup_nil, List.nodup_nil⟩⟩
  · cases hget
  · cases hget

omit [Add K] [One K] in
theorem dispose (m : TTLMap α V K) : Effect m (dispose m) none := by
  unfold PowerTTLMap.dispose
  split
  · exact refl m none
  · exact (clear m).trans ⟨fun _ _ h => Or.inl h, id, fun hd => ⟨hd.map, hd.expirations⟩⟩

/-- Every call that does not sweep. -/
theorem invoke (m : TTLMap α V K) (op : Op α V K) (hop : ∀ now now', op ≠ .purge now now') :
    Effect m (invoke m op) (given m op) := by
  cases op with
  | set key value ttl now => exact set m key value ttl now
  | get key now => exact get m key now
  | has key now => exact has m key now
  | delete key => exact delete m key
  | touch key ttl now now' => exact touch m key ttl now now'
  | purge now now' => exact absurd rfl (hop now now')
  | clear =>
    show Effect m (if m.disposed = true then m else PowerTTLMap.clear m) none
    split
    · exact refl m none
    · exact clear m
  | dispose => exact dispose m

end Effect

variable {k : Option α} {f : Sweep α K}

omit [LinearOrder K] [Add K] [Zero K] [One K] in
theorem mem_index (hd : Distinct m) {e : K} :
    (k, e) ∈ m.expirations ↔ EntryMap.get k m.expirations = some e :=
  ⟨EntryMap.get_of_mem hd.expirations, EntryMap.mem_of_get⟩

omit [Add K] [One K] in
theorem Indexed.entry (h : Indexed m) {e : K} (hget : EntryMap.get k m.expirations = some e) :
    e ≠ 0 ∧ ∃ entry, EntryMap.get k m.map = some entry ∧ entry.expiresAt = e := by
  rw [h k] at hget
  obtain ⟨entry, hentry, he⟩ := Option.bind_eq_some_iff.mp hget
  split at he
  · cases he
  · next hne =>
    cases he
    exact ⟨hne, entry, hentry, rfl⟩

/-! ## A sweep -/

structure SweepOk (m : TTLMap α V K) (f : Sweep α K) : Prop where
  found : f.nextExpiryAt = 0 ∨ f.now ≤ f.nextExpiryAt
  passed : ∀ k ∈ f.passed, f.nextExpiryAt ≠ 0 ∧
    ∀ e, EntryMap.get k m.expirations = some e → f.nextExpiryAt ≤ e

inductive Swept (m : TTLMap α V K) (f : Sweep α K) : TTLMap α V K × Option (Sweep α K) → Prop where
  /-- It ends with the soonest expiry, and nothing expired is left. -/
  | ends (next : K) (h : ∀ k e, EntryMap.get k m.expirations = some e → next ≠ 0 ∧ next ≤ e ∧ f.now ≤ e) :
    Swept m f ({ m with nextExpiryAt := next, nextExpiryDirty := false }, none)
  /-- It takes out a key that is expired. -/
  | expires (k : Option α) (entry : Entry V K) (f' : Sweep α K)
    (hentry : EntryMap.get k m.map = some entry) (hexp : Expired entry f.now) (hnow : f'.now = f.now)
    (hok : SweepOk m f') : Swept m f (expireKey m k entry, some f')

section
omit [Add K] [One K]

theorem Swept.of_now {f' : Sweep α K} {r : TTLMap α V K × Option (Sweep α K)} (h : Swept m f' r)
    (hnow : f'.now = f.now) : Swept m f r := by
  cases h with
  | ends next h => exact Swept.ends next (hnow ▸ h)
  | expires k entry f'' hentry hexp hnow' hok =>
    exact Swept.expires k entry f'' hentry (hnow ▸ hexp) (hnow'.trans hnow) hok

theorem SweepOk.pass (h : SweepOk m f) {e next : K}
    (hget : EntryMap.get k m.expirations = some e) (hne : next ≠ 0) (hle : next ≤ e)
    (hnow : f.now ≤ next) (hmin : f.nextExpiryAt ≠ 0 → next ≤ f.nextExpiryAt) :
    SweepOk m { f with nextExpiryAt := next, passed := f.passed ++ [k] } := by
  refine ⟨Or.inr hnow, fun k' hk' => ⟨hne, fun e' hget' => ?_⟩⟩
  rcases List.mem_append.mp hk' with hk' | hk'
  · obtain ⟨hne', hle'⟩ := h.passed k' hk'
    exact (hmin hne').trans (hle' e' hget')
  · rw [List.mem_singleton.mp hk', hget] at hget'
    cases hget'
    exact hle

theorem sweepOn_spec (hi : Indexed m) (hd : Distinct m) (rest : List (Option α × K)) (f : Sweep α K)
    (hok : SweepOk m f) (hsub : ∀ e ∈ rest, e ∈ m.expirations)
    (hall : ∀ e ∈ m.expirations, e.1 ∈ f.passed ∨ e ∈ rest) : Swept m f (sweepOn m f rest) := by
  induction rest generalizing f with
  | nil =>
    refine Swept.ends f.nextExpiryAt fun k e hget => ?_
    obtain hpassed | hnil := hall (k, e) ((mem_index hd).mpr hget)
    · obtain ⟨hne, hle⟩ := hok.passed k hpassed
      have hnow : f.now ≤ f.nextExpiryAt := hok.found.resolve_left hne
      exact ⟨hne, hle e hget, hnow.trans (hle e hget)⟩
    · cases hnil
  | cons p rest ih =>
    obtain ⟨k, exp⟩ := p
    have hget : EntryMap.get k m.expirations = some exp := (mem_index hd).mp (hsub _ List.mem_cons_self)
    obtain ⟨hne, entry, hentry, rfl⟩ := hi.entry hget
    have hsub' : ∀ e ∈ rest, e ∈ m.expirations := fun e he => hsub e (List.mem_cons_of_mem _ he)
    have hall' : ∀ e ∈ m.expirations, e.1 ∈ f.passed ++ [k] ∨ e ∈ rest := by
      intro e he
      rcases hall e he with hpassed | hrest
      · exact Or.inl (List.mem_append_left _ hpassed)
      · rcases List.mem_cons.mp hrest with rfl | hrest
        · exact Or.inl (List.mem_append_right _ (List.mem_singleton.mpr rfl))
        · exact Or.inr hrest
    rw [sweepOn]
    by_cases hlate : entry.expiresAt ≠ 0 ∧ entry.expiresAt < f.now
    · rw [if_pos hlate, hentry]
      exact Swept.expires k entry f hentry hlate rfl hok
    · have hnow : f.now ≤ entry.expiresAt := not_lt.mp fun hlt => hlate ⟨hne, hlt⟩
      rw [if_neg hlate]
      split
      · next hmin =>
        refine (ih _ (hok.pass hget hne le_rfl hnow fun hne' => ?_) hsub' hall').of_now rfl
        exact (hmin.2.resolve_left hne').le
      · next hmin =>
        have hfound : f.nextExpiryAt ≠ 0 := fun h0 => hmin ⟨hne, Or.inl h0⟩
        have hle : f.nextExpiryAt ≤ entry.expiresAt := not_lt.mp fun hlt => hmin ⟨hne, Or.inr hlt⟩
        have hpass := hok.pass hget hfound hle (hok.found.resolve_left hfound) fun _ => le_rfl
        exact (ih _ hpass hsub' hall').of_now rfl

theorem resume_spec (hi : Indexed m) (hd : Distinct m) (hok : SweepOk m f) :
    Swept m f (resume m f) := by
  refine sweepOn_spec hi hd _ f hok (fun e he => (List.mem_filter.mp he).1) fun e he => ?_
  by_cases hpassed : e.1 ∈ f.passed
  · exact Or.inl hpassed
  · exact Or.inr (List.mem_filter.mpr ⟨he, by simpa using hpassed⟩)

theorem SweepOk.sub (h : SweepOk m f) (hstored : ∀ k e,
    EntryMap.get k m'.expirations = some e → EntryMap.get k m.expirations = some e) : SweepOk m' f :=
  ⟨h.found, fun k hk => ⟨(h.passed k hk).1, fun e hget => (h.passed k hk).2 e (hstored k e hget)⟩⟩

/-- What a call leaves of a sweep that waits for it. -/
theorem SweepOk.after {w : Option (Option α × K)} {again : List (Option α)}
    (h : SweepOk m f) (hstored : ∀ k e, EntryMap.get k m'.expirations = some e →
      EntryMap.get k m.expirations = some e ∨ w = some (k, e))
    (hw : ∀ p ∈ w, p.1 ∈ f.passed → p.1 ∉ again → f.nextExpiryAt ≤ p.2) : SweepOk m' (f.after m' again) := by
  refine ⟨h.found, fun k hk => ?_⟩
  obtain ⟨hpassed, hkept⟩ := List.mem_filter.mp hk
  obtain ⟨hne, hle⟩ := h.passed k hpassed
  refine ⟨hne, fun e hget => ?_⟩
  rcases hstored k e hget with hold | hnew
  · exact hle e hold
  · exact hw (k, e) hnew hpassed (by simpa using (Bool.and_eq_true_iff.mp hkept).2)

end

/-! ## Runs -/

/-- What holds between the events: the index is in step, its bound holds, and so does what each
sweep that waits has found. -/
structure Sound (s : Running α V K) : Prop where
  indexed : Indexed s.ttlMap
  distinct : Distinct s.ttlMap
  bounded : Bounded s.ttlMap
  sweeps : ∀ f, Frame.sweep f ∈ s.frames → SweepOk s.ttlMap f

theorem invoke_indexed (h : Indexed m) (op : Op α V K) : Indexed (invoke m op) := by
  cases op with
  | clear =>
    show Indexed (if m.disposed = true then m else clear m)
    split
    · exact h
    · exact call_indexed h .clear
  | _ => exact call_indexed h _

/-- A map with a `maxSize` sets the key of every expiry it is given anew. -/
theorem given_used {op : Op α V K} {p : Option α × K} (h : p ∈ given m op) : p.1 ∈ used m op := by
  cases op with
  | set key value ttl now =>
    simp only [given] at h
    cases hms : resolveTtl ttl m.defaultTTL with
    | error e => simp [hms] at h
    | ok ms =>
      simp only [hms, Option.mem_def, Option.ite_none_right_eq_some] at h
      obtain ⟨⟨hopen, -⟩, hp⟩ := h
      cases hp
      simp [used, Accepted, hms, hopen, Except.isOk, Except.toBool]
  | touch key ttl now now' =>
    simp only [given] at h
    cases hms : resolveTtl ttl m.defaultTTL with
    | error e => simp [hms] at h
    | ok ms =>
      simp only [hms, Option.mem_def, Option.ite_none_right_eq_some] at h
      obtain ⟨⟨hlive, -⟩, hp⟩ := h
      cases hp
      simp [used, hms, hlive, Except.isOk, Except.toBool]
  | _ => cases h

variable {s : Running α V K} {e : Event α V K}

omit [LinearOrder K] [Add K] [One K] [Zero K] in
theorem mem_after {fs : List (Frame α K)} {ks : List (Option α)} {f' : Sweep α K}
    (h : Frame.sweep f' ∈ fs.map (Frame.after m' ks)) : ∃ f, Frame.sweep f ∈ fs ∧ f' = f.after m' ks := by
  obtain ⟨f, hf, heq⟩ := List.mem_map.mp h
  cases f with
  | sweep f => exact ⟨f, hf, (Frame.sweep.inj heq).symm⟩
  | done => cases heq

omit [DecidableEq α] [LinearOrder K] [Add K] [Zero K] [One K] in
theorem waiting_subset (s : Running α V K) (e : Event α V K) : ∀ f ∈ waiting s e, f ∈ s.frames := by
  cases e with
  | call op => exact fun _ h => h
  | returns => exact fun _ h => List.mem_of_mem_tail h

omit [Add K] [One K] in
/-- A sweep that starts has found nothing yet, and one that goes on has kept what it found. -/
theorem Sound.resumed (h : Sound s) (hf : resumed s e = some f) : SweepOk s.ttlMap f := by
  cases e with
  | returns =>
    unfold PowerTTLMap.resumed at hf
    dsimp only at hf
    split at hf
    · next f' _ hframes =>
      cases hf
      exact h.sweeps f (by rw [hframes]; exact List.mem_cons_self)
    · cases hf
  | call op =>
    cases op with
    | purge now now' =>
      unfold PowerTTLMap.resumed at hf
      dsimp only at hf
      split at hf
      · cases hf
        exact ⟨Or.inl rfl, fun k hk => absurd hk List.not_mem_nil⟩
      · cases hf
    | _ => cases hf

theorem step_sweep (hf : resumed s e = some f) : s.step e =
    ⟨(resume s.ttlMap f).1, ((resume s.ttlMap f).2.map Frame.sweep).toList ++
      (waiting s e).map (Frame.after (resume s.ttlMap f).1 [])⟩ := by
  unfold Running.step
  rw [hf]

/-- A sweep leaves the invariant as it ends, and as it starts a callback. -/
theorem Sound.sweep (h : Sound s) (hf : PowerTTLMap.resumed s e = some f) :
    Sound (s.step e) := by
  have hwaiting (m' : TTLMap α V K) (hstored : ∀ k e, EntryMap.get k m'.expirations = some e →
        EntryMap.get k s.ttlMap.expirations = some e) (f' : Sweep α K)
      (hf' : Frame.sweep f' ∈ (waiting s e).map (Frame.after m' [])) : SweepOk m' f' := by
    obtain ⟨f₀, hf₀, rfl⟩ := mem_after hf'
    have hok := h.sweeps f₀ (waiting_subset s e _ hf₀)
    exact hok.after (w := none) (fun k e hget => Or.inl (hstored k e hget)) (by simp)
  rw [step_sweep hf]
  have hswept := resume_spec h.indexed h.distinct (h.resumed hf)
  generalize resume s.ttlMap f = r at hswept ⊢
  cases hswept with
  | ends next hnext =>
    refine ⟨h.indexed.congr rfl rfl, ⟨h.distinct.map, h.distinct.expirations⟩, ?_, hwaiting _ fun _ _ => id⟩
    exact fun _ k e hget => ⟨(hnext k e hget).1, (hnext k e hget).2.1⟩
  | expires k entry f' hentry hexp hnow hok =>
    have he := Effect.expireKey s.ttlMap k entry
    have hstored (k' : Option α) (e : K)
        (hget : EntryMap.get k' (expireKey s.ttlMap k entry).expirations = some e) :
        EntryMap.get k' s.ttlMap.expirations = some e :=
      (he.stored k' e hget).resolve_right fun hnone => nomatch hnone
    refine ⟨h.indexed.expireKey entry, he.distinct h.distinct, he.bounded h.bounded, fun f'' hf'' => ?_⟩
    rcases List.mem_cons.mp hf'' with heq | hf''
    · cases heq
      exact hok.sub hstored
    · exact hwaiting _ hstored f'' hf''

theorem Sound.invoke (h : Sound s) {op : Op α V K} (hop : ∀ now now', op ≠ .purge now now')
    (hspares : SparesPassed s (.call op)) : Sound (s.step (.call op)) := by
  have he := Effect.invoke s.ttlMap op hop
  have hi := invoke_indexed h.indexed op
  have hstep : s.step (.call op) = ⟨PowerTTLMap.invoke s.ttlMap op,
      (if (PowerTTLMap.invoke s.ttlMap op).expired.length = s.ttlMap.expired.length then [] else [.done]) ++
        s.frames.map (Frame.after (PowerTTLMap.invoke s.ttlMap op) (again s.ttlMap op))⟩ := by
    cases op with
    | purge now now' => exact absurd rfl (hop now now')
    | _ => rfl
  rw [hstep]
  generalize PowerTTLMap.invoke s.ttlMap op = m' at he hi
  refine ⟨hi, he.distinct h.distinct, he.bounded h.bounded, fun f hf => ?_⟩
  rcases List.mem_append.mp hf with hnew | hold
  · split at hnew
    · cases hnew
    · cases List.mem_singleton.mp hnew
  · obtain ⟨f₀, hf₀, rfl⟩ := mem_after hold
    refine (h.sweeps f₀ hf₀).after he.stored fun p hp hpassed hagain => ?_
    have hmax : s.ttlMap.maxSize = 0 := by
      by_contra hmax
      apply hagain
      unfold again
      rw [if_pos (Nat.pos_of_ne_zero hmax)]
      exact given_used hp
    exact hspares hmax p hp _ hf₀ hpassed

theorem Sound.step (h : Sound s) (hspares : SparesPassed s e) : Sound (s.step e) := by
  cases hf : PowerTTLMap.resumed s e with
  | some f => exact h.sweep hf
  | none =>
    cases e with
    | returns =>
      unfold Running.step
      rw [hf]
      exact ⟨h.indexed, h.distinct, h.bounded, fun f hmem => h.sweeps f (List.mem_of_mem_tail hmem)⟩
    | call op =>
      by_cases hop : ∃ now now', op = .purge now now'
      · obtain ⟨now, now', rfl⟩ := hop
        unfold Running.step
        rw [hf]
        exact h
      · exact h.invoke (fun now now' heq => hop ⟨now, now', heq⟩) hspares

/-! ## The shortcut -/

section
omit [Add K] [One K]

/-- As many expiries in the index as entries are past a reading. -/
theorem expired_index (hi : Indexed m) (hd : Distinct m) (now : K) :
    m.expirations.countP (fun e => decide (e.2 ≠ 0 ∧ e.2 < now)) = expiredAt m now := by
  let expiring := (m.map.filter fun e => decide (e.2.expiresAt ≠ 0)).map fun e => (e.1, e.2.expiresAt)
  have hkeys : (expiring.map Prod.fst).Nodup := by
    have hfst : expiring.map Prod.fst = (m.map.filter fun e => decide (e.2.expiresAt ≠ 0)).map Prod.fst := by
      rw [List.map_map]
      rfl
    rw [hfst]
    exact hd.map.sublist (List.filter_sublist.map _)
  have hperm : m.expirations.Perm expiring := by
    refine (List.perm_ext_iff_of_nodup hd.expirations.of_map hkeys.of_map).mpr fun p => ?_
    obtain ⟨k, e⟩ := p
    rw [mem_index hd]
    constructor
    · intro hget
      obtain ⟨hne, entry, hentry, rfl⟩ := hi.entry hget
      refine List.mem_map.mpr ⟨(k, entry), List.mem_filter.mpr ⟨EntryMap.mem_of_get hentry, ?_⟩, rfl⟩
      exact decide_eq_true hne
    · intro hmem
      obtain ⟨⟨k', entry⟩, hmem, heq⟩ := List.mem_map.mp hmem
      obtain ⟨hentry, hne⟩ := List.mem_filter.mp hmem
      obtain ⟨rfl, rfl⟩ := Prod.mk.inj heq
      rw [hi k', EntryMap.get_of_mem hd.map hentry]
      exact if_neg (of_decide_eq_true hne)
  rw [hperm.countP_eq, List.countP_map, List.countP_filter]
  refine List.countP_congr fun e _ => ?_
  have hexp : Expired e.2 now ↔ e.2.expiresAt ≠ 0 ∧ e.2.expiresAt < now := Iff.rfl
  simp only [Function.comp_apply, Bool.and_eq_true, decide_eq_true_eq, hexp]
  tauto

theorem purge_count (m : TTLMap α V K) (now now' : K) : (purge m now now').2 = expiredCount m now now' := by
  unfold purge expiredCount
  split
  · rfl
  · split <;> rfl

theorem Sound.shortcut (h : Sound s) : ShortcutSound s.ttlMap := by
  have hbound (hclean : s.ttlMap.nextExpiryDirty = false) (e : Option α × K)
      (he : e ∈ s.ttlMap.expirations) : s.ttlMap.nextExpiryAt ≤ e.2 :=
    (h.bounded hclean e.1 e.2 ((mem_index h.distinct).mp he)).2
  have hreports (now now' : K) :
      expiredCount s.ttlMap now now' = expiredAt s.ttlMap (reading s.ttlMap now now') := by
    have hcount := expired_index h.indexed h.distinct
    unfold expiredCount reading
    by_cases hnone : s.ttlMap.map.length = 0 ∨ s.ttlMap.expirations.length = 0
    · rw [if_pos hnone]
      rcases hnone with hmap | hexp
      · unfold expiredAt
        rw [List.length_eq_zero_iff.mp hmap, List.countP_nil]
      · rw [← hcount, List.length_eq_zero_iff.mp hexp, List.countP_nil]
    · rw [if_neg hnone]
      by_cases hshort : s.ttlMap.nextExpiryAt ≠ 0 ∧ s.ttlMap.nextExpiryDirty = false ∧
          now < s.ttlMap.nextExpiryAt
      · rw [if_pos hshort, if_pos hshort, ← hcount, eq_comm, List.countP_eq_zero]
        intro e he
        have hlate : now < e.2 := hshort.2.2.trans_le (hbound hshort.2.1 e he)
        simp [hlate.le]
      · rw [if_neg hshort, if_neg hshort, hcount]
  exact ⟨hbound, hreports, fun now now' => (purge_count _ now now').trans (hreports now now')⟩

end

theorem Sound.collects (h : Sound s) (e : Event α V K) : Collects s e := by
  intro f hf
  have hmap : (s.step e).ttlMap = (resume s.ttlMap f).1 := by rw [step_sweep hf]
  have hswept := resume_spec h.indexed h.distinct (h.resumed hf)
  rw [hmap]
  generalize resume s.ttlMap f = r at hswept
  cases hswept with
  | ends next hnext =>
    refine ⟨fun _ => Or.inl rfl, fun _ k entry hentry hexp => ?_⟩
    have hget : EntryMap.get k s.ttlMap.expirations = some entry.expiresAt := by
      rw [h.indexed k, show EntryMap.get k s.ttlMap.map = some entry from hentry]
      exact if_neg hexp.1
    exact absurd hexp.2 (not_lt.mpr (hnext k _ hget).2.2)
  | expires k entry f' hentry hexp hnow hok =>
    refine ⟨fun k' => ?_, fun hnone => by cases hnone⟩
    have hget : EntryMap.get k' (expireKey s.ttlMap k entry).map =
        if k' = k then none else EntryMap.get k' s.ttlMap.map := EntryMap.get_delete
    rw [hget]
    by_cases hk : k' = k
    · subst hk
      exact Or.inr ⟨if_pos rfl, entry, hentry, hexp⟩
    · exact Or.inl (if_neg hk)

/-! ## Callbacks that do not call -/

omit [LinearOrder K] [Add K] [Zero K] [One K] in
/-- Without the entry at the front. -/
theorem unpassed_cons (hd : Distinct m) {p : Option α × K} {rest : List (Option α × K)}
    (h : unpassed m f = p :: rest) : p.1 ∉ rest.map Prod.fst ∧
      rest = (unpassed m f).filter fun e => decide (e.1 ≠ p.1) := by
  have hnodup : ((p :: rest).map Prod.fst).Nodup := by
    rw [← h]
    exact hd.expirations.sublist (List.filter_sublist.map _)
  have hfresh := (List.nodup_cons.mp hnodup).1
  refine ⟨hfresh, ?_⟩
  rw [h, List.filter_cons_of_neg (by simp), eq_comm, List.filter_eq_self]
  intro e he
  exact decide_eq_true fun heq => hfresh (heq ▸ List.mem_map_of_mem he)

/-- What is left of a sweep whose callbacks only return. -/
theorem sweep_returns (hd : Distinct m) {rest : List (Option α × K)}
    (h : unpassed m f = rest) :
    let swept := rest.foldl (sweepEntry f.now) (m, f.nextExpiryAt)
    ∃ n, run Running.step ⟨(sweepOn m f rest).1, ((sweepOn m f rest).2.map Frame.sweep).toList⟩
        (List.replicate n Event.returns) =
      ⟨{ swept.1 with nextExpiryAt := swept.2, nextExpiryDirty := false }, []⟩ := by
  induction rest generalizing m f with
  | nil => exact ⟨0, rfl⟩
  | cons p rest ih =>
    obtain ⟨k, exp⟩ := p
    obtain ⟨hfresh, hrest⟩ := unpassed_cons hd h
    have hpass (next : K) : unpassed m { f with nextExpiryAt := next, passed := f.passed ++ [k] } = rest := by
      rw [hrest]
      unfold unpassed
      rw [List.filter_filter]
      refine List.filter_congr fun e _ => ?_
      simp [Bool.and_comm]
    rw [sweepOn, List.foldl_cons, sweepEntry]
    dsimp only
    by_cases hlate : exp ≠ 0 ∧ exp < f.now
    · rw [if_pos hlate, if_pos hlate]
      cases hentry : EntryMap.get k m.map with
      | none =>
        exact ih hd (hpass f.nextExpiryAt)
      | some entry =>
        have hleft : unpassed (expireKey m k entry) f = rest := by
          rw [hrest]
          unfold unpassed expireKey EntryMap.delete
          dsimp only
          rw [List.filter_filter, List.filter_filter]
          refine List.filter_congr fun e _ => ?_
          rw [Bool.and_comm]
          simp only [ne_eq, decide_not]
        obtain ⟨n, hn⟩ := ih ((Effect.expireKey m k entry).distinct hd) hleft
        refine ⟨n + 1, ?_⟩
        have hf : resumed ⟨expireKey m k entry, [.sweep f]⟩ Event.returns = some f := rfl
        show run Running.step ⟨expireKey m k entry, [.sweep f]⟩ (List.replicate (n + 1) .returns) = _
        rw [List.replicate_succ, run_cons, ← hn, step_sweep hf, resume, hleft]
        simp [waiting]
    · rw [if_neg hlate, if_neg hlate]
      split
      · exact ih hd (hpass exp)
      · exact ih hd (hpass f.nextExpiryAt)

omit [Add K] [One K] in
/-- `purge` sweeps when it counts something. -/
theorem purge_map (m : TTLMap α V K) (now now' : K) :
    (purge m now now').1 = if (purge m now now').2 ≠ 0 then sweepExpirations m now' else m := by
  unfold purge
  split
  · rfl
  · split
    · rfl
    · rfl

/-- A `purge` whose callbacks only return is the one that has no callbacks. -/
theorem purge_returns (hd : Distinct m) (now now' : K) :
    ∃ n, run Running.step ⟨m, []⟩ (.call (.purge now now') :: List.replicate n Event.returns) =
      ⟨(purge m now now').1, []⟩ := by
  rw [purge_map]
  by_cases hcount : (purge m now now').2 ≠ 0
  · have hall : unpassed m ⟨now', 0, []⟩ = m.expirations := by
      unfold unpassed
      simp
    have hf : resumed ⟨m, []⟩ (.call (.purge now now')) = some ⟨now', 0, []⟩ := if_pos hcount
    obtain ⟨n, hn⟩ := sweep_returns hd hall
    refine ⟨n, ?_⟩
    rw [if_pos hcount, run_cons, sweepExpirations, ← hn, step_sweep hf, resume, hall]
    simp [waiting]
  · have hf : resumed ⟨m, []⟩ (.call (.purge now now')) = none := if_neg hcount
    refine ⟨0, ?_⟩
    rw [if_neg hcount]
    show Running.step ⟨m, []⟩ (.call (.purge now now')) = ⟨m, []⟩
    unfold Running.step
    rw [hf]

/-- In every run where no callback gives a key that a sweep has passed an expiry below the soonest
one the sweep has found, the shortcut is sound in every state, and every `purge` takes out what is
expired and nothing else. -/
theorem shortcut_sound (o : Options K) (es : List (Event α V K))
    (hspares : Meets Running.step SparesPassed (Running.start o) es) :
    Always Running.step (fun s => ShortcutSound s.ttlMap) (Running.start o : Running α V K) es ∧
      Meets Running.step Collects (Running.start o) es := by
  have hbound : Bounded (new o : TTLMap α V K) := by
    intro _ k e hget
    cases hget
  have hstart : Sound (Running.start o : Running α V K) :=
    ⟨fun _ => rfl, ⟨List.nodup_nil, List.nodup_nil⟩, hbound, fun _ hf => absurd hf List.not_mem_nil⟩
  have hstep (s : Running α V K) (e : Event α V K) (h : Sound s) (hok : SparesPassed s e) :
      Sound (s.step e) := h.step hok
  constructor
  · exact (always_of_meets hstep hstart hspares).mono fun s h => h.shortcut
  · exact hspares.imp hstep (fun s e h _ => h.collects e) hstart

end

/-- The sweep passes the first key, which expires late, and takes out the second, whose callback
sets the first to expire soon: the sweep ends with the expiry that was. -/
theorem expiry_missed :
    let s := run Running.step (Running.start (⟨0, none⟩ : Options ℤ))
      [.call (.set (some 1) 10 (.ms 100) 0), .call (.set (some 2) 20 (.ms 5) 0), .call (.purge 10 10),
        .call (.set (some 1) 10 (.ms 20) 10), .returns]
    s.frames = [] ∧ s.ttlMap.nextExpiryDirty = false ∧ s.ttlMap.nextExpiryAt = 101 ∧
      s.ttlMap.expirations = [(some 1, 31)] ∧
      expiredCount s.ttlMap 50 50 = 0 ∧ (purge s.ttlMap 50 50).2 = 0 ∧ expiredAt s.ttlMap 50 = 1 := by
  decide +kernel

/-- The same where the callback sets the first key to expire later. -/
theorem shortcut_sound_later :
    let es : List (Event ℕ ℕ ℤ) := [.call (.set (some 1) 10 (.ms 100) 0), .call (.set (some 2) 20 (.ms 5) 0),
      .call (.purge 10 10), .call (.set (some 1) 10 (.ms 200) 10), .returns]
    Always Running.step (fun s => ShortcutSound s.ttlMap) (Running.start ⟨0, none⟩) es ∧
      Meets Running.step Collects (Running.start ⟨0, none⟩) es :=
  shortcut_sound ⟨0, none⟩ _ (by decide +kernel)

end PerformanceHelpers.PowerTTLMap
