import Mathlib.Data.Rat.Floor
import PerformanceHelpers.EntryMap
import PerformanceHelpers.Run

/- `PowerTTLMap` (`src/helpers/powerTTLMap.js`).

   A key is an `Option`: `none` is `undefined`, which is a key like any other of a JavaScript map,
   and which `keys().next().value` also is when there is no key. Times are of any ordered type with
   a sum, so that a default TTL may be infinite; a clock reading is an argument of the call that
   takes it. `onExpire` is recorded in `expired`; it does not call the map.

   What is resident is in the order it was last used, the least recently used key first
   (`Ordered`), when there is a `maxSize`. A key that is set when the map is full then takes the
   place of the key that was used least recently, expired or not, unless that key is `undefined`:
   the loop that makes room takes `undefined` for an empty map and stops. -/
namespace PerformanceHelpers.PowerTTLMap

/-- A `ttl` argument, once `{ ttl }` is opened: nullish, `Infinity`, what `Number` makes a finite
number of, or anything else. -/
inductive Ttl (K : Type) where
  | nullish
  | infinity
  | ms (t : K)
  | invalid
  deriving DecidableEq

inductive Failure (K : Type) where
  | disposed
  | ttlType
  | negativeTtl (ms : K)
  deriving DecidableEq

structure Entry (V K : Type) where
  value : V
  expiresAt : K
  deriving DecidableEq

/-- The fields of the map. `evicted` are the keys that were taken out to make room, in order, and
`expired` are the calls of `onExpire`. -/
structure TTLMap (α V K : Type) where
  defaultTTL : K
  maxSize : ℕ
  map : List (Option α × Entry V K)
  expirations : List (Option α × K)
  nextExpiryAt : K
  nextExpiryDirty : Bool
  disposed : Bool
  evicted : List (Option α)
  expired : List (Option α × V)
  deriving DecidableEq

/-- The options read by the constructor; `maxSize` is `none` when it is not a finite number. -/
structure Options (K : Type) where
  defaultTTL : K
  maxSize : Option ℚ
  deriving DecidableEq

section
variable {α V K : Type} [DecidableEq α] [LinearOrder K] [Add K] [Zero K] [One K]

def new (o : Options K) : TTLMap α V K where
  defaultTTL := o.defaultTTL
  maxSize := match o.maxSize with
    | none => 0
    | some r => if 0 < r then ⌊r⌋₊ else 0
  map := []
  expirations := []
  nextExpiryAt := 0
  nextExpiryDirty := false
  disposed := false
  evicted := []
  expired := []

namespace TTLMap

def keys (m : TTLMap α V K) : List (Option α) := m.map.map Prod.fst

def size (m : TTLMap α V K) : ℕ := m.map.length

end TTLMap

def resolveTtl (ttl : Ttl K) (fallback : K) : Except (Failure K) K :=
  match ttl with
  | .nullish => .ok fallback
  | .infinity => .ok 0
  | .invalid => .error .ttlType
  | .ms t => if t < 0 then .error (.negativeTtl t) else .ok t

/-- What is stored for a duration: `0` is no expiry, and `1` is the slack. -/
def expiryOf (ms now : K) : K := if 0 < ms then now + ms + 1 else 0

def updateNextExpiryOnWrite (m : TTLMap α V K) (prevExpiry nextExpiry : K) : TTLMap α V K :=
  let m₁ := if prevExpiry ≠ 0 ∧ m.nextExpiryAt = prevExpiry ∧ prevExpiry ≠ nextExpiry then
    { m with nextExpiryDirty := true } else m
  if nextExpiry ≠ 0 ∧ (m₁.nextExpiryAt = 0 ∨ nextExpiry < m₁.nextExpiryAt) then
    { m₁ with nextExpiryAt := nextExpiry } else m₁

def index (m : TTLMap α V K) (key : Option α) (expiresAt : K) : TTLMap α V K :=
  { m with
    expirations := if expiresAt ≠ 0 then EntryMap.set key expiresAt m.expirations
      else EntryMap.delete key m.expirations }

def refresh (m : TTLMap α V K) (key : Option α) (entry : Entry V K) : TTLMap α V K :=
  { m with
    map := EntryMap.set key entry (EntryMap.delete key m.map)
    expirations := if entry.expiresAt ≠ 0 then
        match EntryMap.get key m.expirations with
        | some ex => EntryMap.set key ex (EntryMap.delete key m.expirations)
        | none => EntryMap.delete key m.expirations
      else m.expirations }

/-- What the loop of `set` does with the key it takes out. -/
def evict (m : TTLMap α V K) (lruKey : Option α) : TTLMap α V K :=
  { m with
    map := EntryMap.delete lruKey m.map
    expirations := EntryMap.delete lruKey m.expirations
    nextExpiryDirty := match EntryMap.get lruKey m.map with
      | some lruEntry => m.nextExpiryDirty ||
          decide (lruEntry.expiresAt ≠ 0 ∧ m.nextExpiryAt = lruEntry.expiresAt)
      | none => m.nextExpiryDirty
    evicted := m.evicted ++ [lruKey] }

/-- The loop of `set` that makes room. It also stops at a first key that is `undefined`. -/
def evictLoop : ℕ → TTLMap α V K → TTLMap α V K
  | 0, m => m
  | fuel + 1, m =>
    if m.size ≤ m.maxSize then m
    else match m.map.head? with
      | some (some k, _) => evictLoop fuel (evict m (some k))
      | _ => m

/-- What `set` does once the duration is known. -/
def store (m : TTLMap α V K) (key : Option α) (value : V) (ms now : K) : TTLMap α V K :=
  let expiresAt := expiryOf ms now
  let prevExpiry := (EntryMap.get key m.expirations).getD 0
  let isNew := (EntryMap.get key m.map).isNone
  let m₁ := index { m with map := EntryMap.set key ⟨value, expiresAt⟩ m.map } key expiresAt
  let m₂ := if isNew = false ∧ 0 < m.maxSize then refresh m₁ key ⟨value, expiresAt⟩ else m₁
  let m₃ := updateNextExpiryOnWrite m₂ prevExpiry expiresAt
  if 0 < m.maxSize ∧ isNew = true then evictLoop m₃.size m₃ else m₃

def set (m : TTLMap α V K) (key : Option α) (value : V) (ttl : Ttl K) (now : K) :
    TTLMap α V K × Except (Failure K) Unit :=
  if m.disposed = true then (m, .error .disposed)
  else match resolveTtl ttl m.defaultTTL with
    | .error e => (m, .error e)
    | .ok ms => (store m key value ms now, .ok ())

/-- `_expireKey`, of an entry that is there. -/
def expireKey (m : TTLMap α V K) (key : Option α) (entry : Entry V K) : TTLMap α V K :=
  let expiresAt := if entry.expiresAt ≠ 0 then entry.expiresAt
    else (EntryMap.get key m.expirations).getD 0
  { m with
    map := EntryMap.delete key m.map
    expirations := EntryMap.delete key m.expirations
    nextExpiryDirty := m.nextExpiryDirty || decide (expiresAt ≠ 0 ∧ m.nextExpiryAt = expiresAt)
    expired := m.expired ++ [(key, entry.value)] }

def Expired (entry : Entry V K) (now : K) : Prop := entry.expiresAt ≠ 0 ∧ entry.expiresAt < now

instance (entry : Entry V K) (now : K) : Decidable (Expired entry now) :=
  inferInstanceAs (Decidable (_ ∧ _))

/-- `get`; `none` is a miss. -/
def get (m : TTLMap α V K) (key : Option α) (now : K) : TTLMap α V K × Option V :=
  match EntryMap.get key m.map with
  | none => (m, none)
  | some entry =>
    if Expired entry now then (expireKey m key entry, none)
    else if 0 < m.maxSize then (refresh m key entry, some entry.value)
    else (m, some entry.value)

def has (m : TTLMap α V K) (key : Option α) (now : K) : TTLMap α V K × Bool :=
  match EntryMap.get key m.map with
  | none => (m, false)
  | some entry => if Expired entry now then (expireKey m key entry, false) else (m, true)

def delete (m : TTLMap α V K) (key : Option α) : TTLMap α V K × Bool :=
  let expiresAt := (EntryMap.get key m.expirations).getD 0
  ({ m with
      map := EntryMap.delete key m.map
      expirations := EntryMap.delete key m.expirations
      nextExpiryDirty := m.nextExpiryDirty || decide (expiresAt ≠ 0 ∧ m.nextExpiryAt = expiresAt) },
    (EntryMap.get key m.map).isSome)

/-- `touch`, which reads the clock for the entry and again for the new expiry. -/
def touch (m : TTLMap α V K) (key : Option α) (ttl : Ttl K) (now now' : K) :
    TTLMap α V K × Except (Failure K) Bool :=
  match EntryMap.get key m.map with
  | none => (m, .ok false)
  | some entry =>
    if Expired entry now then (expireKey m key entry, .ok false)
    else match resolveTtl ttl m.defaultTTL with
      | .error e => (m, .error e)
      | .ok ms =>
        let entry' : Entry V K := { entry with expiresAt := expiryOf ms now' }
        let m₁ := index { m with map := EntryMap.set key entry' m.map } key entry'.expiresAt
        let m₂ := updateNextExpiryOnWrite m₁ entry.expiresAt entry'.expiresAt
        (if 0 < m.maxSize then refresh m₂ key entry' else m₂, .ok true)

/-- One entry of the index in `_sweepExpirations`, with the soonest expiry found so far. -/
def sweepEntry (now : K) (acc : TTLMap α V K × K) (e : Option α × K) : TTLMap α V K × K :=
  if e.2 ≠ 0 ∧ e.2 < now then
    match EntryMap.get e.1 acc.1.map with
    | some entry => (expireKey acc.1 e.1 entry, acc.2)
    | none => acc
  else if e.2 ≠ 0 ∧ (acc.2 = 0 ∨ e.2 < acc.2) then (acc.1, e.2)
  else acc

def sweepExpirations (m : TTLMap α V K) (now : K) : TTLMap α V K :=
  let swept := m.expirations.foldl (sweepEntry now) (m, 0)
  { swept.1 with nextExpiryAt := swept.2, nextExpiryDirty := false }

/-- `purge`, which reads the clock to see whether anything can have expired, and again to
collect. -/
def purge (m : TTLMap α V K) (now now' : K) : TTLMap α V K × ℕ :=
  if m.map.length = 0 ∨ m.expirations.length = 0 then (m, 0)
  else if m.nextExpiryAt ≠ 0 ∧ m.nextExpiryDirty = false ∧ now < m.nextExpiryAt then (m, 0)
  else
    let removed := m.expirations.countP fun e => decide (e.2 ≠ 0 ∧ e.2 < now')
    (if removed ≠ 0 then sweepExpirations m now' else m, removed)

def clear (m : TTLMap α V K) : TTLMap α V K :=
  { m with map := [], expirations := [], nextExpiryAt := 0, nextExpiryDirty := false }

def dispose (m : TTLMap α V K) : TTLMap α V K :=
  if m.disposed = true then m else clear { m with disposed := true }

end

/-! ## Runs -/

/-- A call with the readings it takes. -/
inductive Op (α V K : Type) where
  | set (key : Option α) (value : V) (ttl : Ttl K) (now : K)
  | get (key : Option α) (now : K)
  | has (key : Option α) (now : K)
  | delete (key : Option α)
  | touch (key : Option α) (ttl : Ttl K) (now now' : K)
  | purge (now now' : K)
  | clear
  | dispose
  deriving DecidableEq

section
variable {α V K : Type} [DecidableEq α] [LinearOrder K] [Add K] [Zero K] [One K]

def call (m : TTLMap α V K) : Op α V K → TTLMap α V K
  | .set key value ttl now => (set m key value ttl now).1
  | .get key now => (get m key now).1
  | .has key now => (has m key now).1
  | .delete key => (delete m key).1
  | .touch key ttl now now' => (touch m key ttl now now').1
  | .purge now now' => (purge m now now').1
  | .clear => clear m
  | .dispose => dispose m

def Live (m : TTLMap α V K) (key : Option α) (now : K) : Prop :=
  ∃ entry ∈ EntryMap.get key m.map, ¬Expired entry now

instance (m : TTLMap α V K) (key : Option α) (now : K) : Decidable (Live m key now) :=
  inferInstanceAs (Decidable (∃ entry ∈ EntryMap.get key m.map, ¬Expired entry now))

/-- `set` is not refused. -/
def Accepted (m : TTLMap α V K) (ttl : Ttl K) : Prop :=
  m.disposed = false ∧ (resolveTtl ttl m.defaultTTL).isOk = true

instance (m : TTLMap α V K) (ttl : Ttl K) : Decidable (Accepted m ttl) :=
  inferInstanceAs (Decidable (_ ∧ _))

def used (m : TTLMap α V K) : Op α V K → List (Option α)
  | .set key _ ttl _ => if Accepted m ttl then [key] else []
  | .get key now => if Live m key now then [key] else []
  | .touch key ttl now _ =>
    if Live m key now ∧ (resolveTtl ttl m.defaultTTL).isOk = true then [key] else []
  | _ => []

structure Traced (α V K : Type) where
  ttlMap : TTLMap α V K
  uses : List (Option α)
  deriving DecidableEq

def step (s : Traced α V K) (op : Op α V K) : Traced α V K :=
  ⟨call s.ttlMap op, s.uses ++ used s.ttlMap op⟩

def start (o : Options K) : Traced α V K := ⟨new o, []⟩

def age (uses : List (Option α)) (key : Option α) : ℕ := uses.reverse.idxOf key

/-- Of the keys `ks`, `key` was used least recently. -/
def LeastRecent (uses : List (Option α)) (ks : List (Option α)) (key : Option α) : Prop :=
  key ∈ ks ∧ ∀ k ∈ ks, age uses k ≤ age uses key

instance (uses ks : List (Option α)) (key : Option α) : Decidable (LeastRecent uses ks key) :=
  inferInstanceAs (Decidable (_ ∧ ∀ k ∈ ks, _))

def Overflows (m : TTLMap α V K) : Op α V K → Prop
  | .set key _ ttl _ => Accepted m ttl ∧ key ∉ m.keys ∧ m.size = m.maxSize
  | _ => False

instance (m : TTLMap α V K) : ∀ op, Decidable (Overflows m op)
  | .set _ _ _ _ => inferInstanceAs (Decidable (_ ∧ _))
  | .get _ _ | .has _ _ | .delete _ | .touch _ _ _ _ | .purge _ _ | .clear | .dispose =>
    inferInstanceAs (Decidable False)

/-- No room is made where `undefined` is the key that was used least recently. -/
def SparesUndefined (s : Traced α V K) (op : Op α V K) : Prop :=
  Overflows s.ttlMap op → ¬LeastRecent s.uses s.ttlMap.keys none

instance (s : Traced α V K) (op : Op α V K) : Decidable (SparesUndefined s op) :=
  inferInstanceAs (Decidable (_ → _))

/-- What a call takes out to make room is the resident key that was used least recently, when it
sets a new key in a full map, and nothing otherwise. A call of `set` loses no other key. -/
def EvictsLeastRecent (s : Traced α V K) (op : Op α V K) : Prop :=
  let m := s.ttlMap
  let m' := (step s op).ttlMap
  (if Overflows m op then ∃ k, LeastRecent s.uses m.keys k ∧ m'.evicted = m.evicted ++ [k]
    else m'.evicted = m.evicted) ∧
  ∀ key value ttl now, op = .set key value ttl now → Accepted m ttl →
    ∀ k, k ∈ m'.keys ↔ k = key ∨ k ∈ m.keys ∧ k ∉ m'.evicted.drop m.evicted.length

end

/-! ## What the parts of a call change -/

section
variable {α V K : Type} [DecidableEq α] [LinearOrder K] [Add K] [Zero K] [One K]
  {m : TTLMap α V K} {key : Option α}

section
omit [DecidableEq α] [Add K] [One K]

@[simp] theorem updateNextExpiryOnWrite_map (a b : K) : (updateNextExpiryOnWrite m a b).map = m.map := by
  unfold updateNextExpiryOnWrite
  grind

@[simp] theorem updateNextExpiryOnWrite_maxSize (a b : K) :
    (updateNextExpiryOnWrite m a b).maxSize = m.maxSize := by
  unfold updateNextExpiryOnWrite
  grind

@[simp] theorem updateNextExpiryOnWrite_evicted (a b : K) :
    (updateNextExpiryOnWrite m a b).evicted = m.evicted := by
  unfold updateNextExpiryOnWrite
  grind

end

section
omit [Add K] [One K]

theorem refresh_keys (entry : Entry V K) :
    (refresh m key entry).keys = (m.keys.filter fun k => !decide (k = key)) ++ [key] := by
  unfold TTLMap.keys refresh
  rw [EntryMap.set_delete, List.map_append, EntryMap.delete_keys]
  rfl

theorem evictLoop_of_le {fuel : ℕ} (h : m.size ≤ m.maxSize) : evictLoop fuel m = m := by
  cases fuel with
  | zero => rfl
  | succ fuel => rw [evictLoop, if_pos h]

/-- A map that holds one key too many loses its first key, unless that is `undefined`. -/
theorem evictLoop_one (fuel : ℕ) {k : α} {entry : Entry V K} {rest : List (Option α × Entry V K)}
    (hmap : m.map = (some k, entry) :: rest) (hnd : m.keys.Nodup) (hsize : m.size = m.maxSize + 1) :
    evictLoop (fuel + 1) m = evict m (some k) ∧ (evict m (some k)).map = rest := by
  have hrest : (evict m (some k)).map = rest := by
    unfold evict
    rw [hmap]
    exact EntryMap.delete_first (by rw [← hmap]; exact hnd)
  refine ⟨?_, hrest⟩
  rw [evictLoop, if_neg (by omega), hmap]
  apply evictLoop_of_le
  have hlen : m.size = rest.length + 1 := by
    unfold TTLMap.size
    rw [hmap, List.length_cons]
  have hle : rest.length ≤ m.maxSize := by omega
  unfold TTLMap.size
  rw [hrest]
  exact hle

end

/-! ## What a call changes -/

structure Shrinks (m m' : TTLMap α V K) : Prop where
  keys : m'.keys.Sublist m.keys
  evicted : m'.evicted = m.evicted
  maxSize : m'.maxSize = m.maxSize

structure Promotes (m : TTLMap α V K) (key : Option α) (m' : TTLMap α V K) : Prop where
  mem : key ∈ m.keys
  keys : m'.keys = (m.keys.filter fun k => !decide (k = key)) ++ [key]
  evicted : m'.evicted = m.evicted
  maxSize : m'.maxSize = m.maxSize

/-- A new key comes last, and the keys `gone` before it are taken out to make room. -/
structure Adds (m : TTLMap α V K) (key : Option α) (gone : List (Option α)) (m' : TTLMap α V K) :
    Prop where
  fresh : key ∉ m.keys
  keys : gone ++ m'.keys = m.keys ++ [key]
  evicted : m'.evicted = m.evicted ++ gone
  maxSize : m'.maxSize = m.maxSize

section
omit [DecidableEq α] [LinearOrder K] [Add K] [Zero K] [One K]

theorem Shrinks.refl (m : TTLMap α V K) : Shrinks m m := ⟨List.Sublist.refl _, rfl, rfl⟩

theorem Shrinks.trans {m m' m'' : TTLMap α V K} (h : Shrinks m m') (h' : Shrinks m' m'') : Shrinks m m'' :=
  ⟨h'.keys.trans h.keys, h'.evicted.trans h.evicted, h'.maxSize.trans h.maxSize⟩

end

section
omit [Add K] [One K]

theorem expireKey_shrinks (entry : Entry V K) : Shrinks m (expireKey m key entry) := by
  refine ⟨?_, rfl, rfl⟩
  unfold TTLMap.keys expireKey
  rw [EntryMap.delete_keys]
  exact List.filter_sublist

theorem delete_shrinks (m : TTLMap α V K) (key : Option α) : Shrinks m (delete m key).1 := by
  refine ⟨?_, rfl, rfl⟩
  unfold TTLMap.keys delete
  rw [EntryMap.delete_keys]
  exact List.filter_sublist

theorem sweepExpirations_shrinks (m : TTLMap α V K) (now : K) : Shrinks m (sweepExpirations m now) := by
  have hfold : ∀ (es : List (Option α × K)) (acc : TTLMap α V K × K), Shrinks m acc.1 →
      Shrinks m (es.foldl (sweepEntry now) acc).1 := by
    intro es
    induction es with
    | nil => exact fun _ h => h
    | cons e es ih =>
      intro acc hacc
      rw [List.foldl_cons]
      apply ih
      unfold sweepEntry
      by_cases hlate : e.2 ≠ 0 ∧ e.2 < now
      · rw [if_pos hlate]
        split
        · exact hacc.trans (expireKey_shrinks _)
        · exact hacc
      · rw [if_neg hlate]
        split <;> exact hacc
  have h := hfold m.expirations (m, 0) (Shrinks.refl m)
  exact ⟨h.keys, h.evicted, h.maxSize⟩

theorem purge_shrinks (m : TTLMap α V K) (now now' : K) : Shrinks m (purge m now now').1 := by
  unfold purge
  split
  · exact Shrinks.refl m
  · split
    · exact Shrinks.refl m
    · dsimp only
      split
      · exact sweepExpirations_shrinks m now'
      · exact Shrinks.refl m

end

section
omit [DecidableEq α] [LinearOrder K] [Add K] [One K]

theorem clear_shrinks (m : TTLMap α V K) : Shrinks m (clear m) := ⟨List.nil_sublist _, rfl, rfl⟩

theorem dispose_shrinks (m : TTLMap α V K) : Shrinks m (dispose m) := by
  unfold dispose
  split
  · exact Shrinks.refl m
  · exact ⟨List.nil_sublist _, rfl, rfl⟩

end

omit [Add K] [One K] in
theorem has_shrinks (m : TTLMap α V K) (key : Option α) (now : K) : Shrinks m (has m key now).1 := by
  unfold has
  split
  · exact Shrinks.refl m
  · split
    · exact expireKey_shrinks _
    · exact Shrinks.refl m

omit [Add K] [Zero K] [One K] [LinearOrder K] in
theorem mem_keys_of_get {entry : Entry V K} (h : EntryMap.get key m.map = some entry) : key ∈ m.keys :=
  EntryMap.mem_keys.mpr (by rw [h]; rfl)

section
omit [Add K] [One K]

theorem live_iff {entry : Entry V K} (h : EntryMap.get key m.map = some entry) (now : K) :
    Live m key now ↔ ¬Expired entry now := by
  unfold Live
  rw [h]
  simp

theorem not_live (h : EntryMap.get key m.map = none) (now : K) : ¬Live m key now := by
  unfold Live
  rw [h]
  simp

/-- A miss uses no key, and a hit makes the key the most recent one. -/
theorem get_effect (hmax : 0 < m.maxSize) (key : Option α) (now : K) :
    Live m key now ∧ Promotes m key (get m key now).1 ∨
      ¬Live m key now ∧ Shrinks m (get m key now).1 := by
  unfold get
  cases hget : EntryMap.get key m.map with
  | none => exact Or.inr ⟨not_live hget now, Shrinks.refl m⟩
  | some entry =>
    dsimp only
    by_cases hexp : Expired entry now
    · rw [if_pos hexp]
      exact Or.inr ⟨fun h => (live_iff hget now).mp h hexp, expireKey_shrinks _⟩
    · rw [if_neg hexp, if_pos hmax]
      refine Or.inl ⟨(live_iff hget now).mpr hexp, ?_⟩
      exact ⟨mem_keys_of_get hget, refresh_keys entry, rfl, rfl⟩

/-- Setting a resident key again, and making it the most recent one. -/
theorem promotes_refresh (m' : TTLMap α V K) (entry : Entry V K) (hkey : key ∈ m.keys)
    (hkeys : m'.keys = m.keys) (hevicted : m'.evicted = m.evicted) (hmax : m'.maxSize = m.maxSize) :
    Promotes m key (refresh m' key entry) := by
  refine ⟨hkey, ?_, hevicted, hmax⟩
  rw [refresh_keys, hkeys]

end

theorem touch_effect (hmax : 0 < m.maxSize) (key : Option α) (ttl : Ttl K) (now now' : K) :
    (Live m key now ∧ (resolveTtl ttl m.defaultTTL).isOk = true) ∧
        Promotes m key (touch m key ttl now now').1 ∨
      ¬(Live m key now ∧ (resolveTtl ttl m.defaultTTL).isOk = true) ∧
        Shrinks m (touch m key ttl now now').1 := by
  unfold touch
  cases hget : EntryMap.get key m.map with
  | none => exact Or.inr ⟨fun h => not_live hget now h.1, Shrinks.refl m⟩
  | some entry =>
    dsimp only
    by_cases hexp : Expired entry now
    · rw [if_pos hexp]
      exact Or.inr ⟨fun h => (live_iff hget now).mp h.1 hexp, expireKey_shrinks _⟩
    · rw [if_neg hexp]
      cases hms : resolveTtl ttl m.defaultTTL with
      | error e => exact Or.inr ⟨fun h => Bool.false_ne_true h.2, Shrinks.refl m⟩
      | ok ms =>
        refine Or.inl ⟨⟨(live_iff hget now).mpr hexp, rfl⟩, ?_⟩
        dsimp only
        rw [if_pos hmax]
        have hkey := mem_keys_of_get hget
        apply promotes_refresh _ _ hkey
        · unfold TTLMap.keys index
          rw [updateNextExpiryOnWrite_map]
          exact EntryMap.set_keys hkey
        · rw [updateNextExpiryOnWrite_evicted]
          rfl
        · rw [updateNextExpiryOnWrite_maxSize]
          rfl

omit [LinearOrder K] [Add K] [Zero K] [One K] in
theorem isNew_iff : (EntryMap.get key m.map).isNone = true ↔ key ∉ m.keys := by
  unfold TTLMap.keys
  rw [EntryMap.mem_keys]
  simp

theorem store_resident (hmax : 0 < m.maxSize) (hkey : key ∈ m.keys) (value : V) (ms now : K) :
    Promotes m key (store m key value ms now) := by
  have hold : (EntryMap.get key m.map).isNone = false := by
    rw [Bool.eq_false_iff]
    exact fun h => isNew_iff.mp h hkey
  unfold store
  dsimp only
  rw [hold, if_neg (by simp), if_pos ⟨rfl, hmax⟩]
  have hset : (EntryMap.set key ⟨value, expiryOf ms now⟩ m.map).map Prod.fst = m.keys :=
    EntryMap.set_keys hkey
  have hfresh := promotes_refresh (index { m with map := EntryMap.set key ⟨value, expiryOf ms now⟩ m.map }
    key (expiryOf ms now)) ⟨value, expiryOf ms now⟩ hkey hset rfl rfl
  refine ⟨hkey, ?_, ?_, ?_⟩
  · rw [← hfresh.keys]
    unfold TTLMap.keys
    rw [updateNextExpiryOnWrite_map]
  · rw [updateNextExpiryOnWrite_evicted, hfresh.evicted]
  · rw [updateNextExpiryOnWrite_maxSize, hfresh.maxSize]

theorem store_new (hmax : 0 < m.maxSize) (hkey : key ∉ m.keys) (value : V) (ms now : K) :
    ∃ m₃ : TTLMap α V K, store m key value ms now = evictLoop m₃.size m₃ ∧ Adds m key [] m₃ := by
  let m₁ := index { m with map := EntryMap.set key ⟨value, expiryOf ms now⟩ m.map } key (expiryOf ms now)
  let m₃ := updateNextExpiryOnWrite m₁ ((EntryMap.get key m.expirations).getD 0) (expiryOf ms now)
  refine ⟨m₃, ?_, ?_⟩
  · unfold store
    dsimp only
    rw [isNew_iff.mpr hkey, if_pos ⟨hmax, rfl⟩, if_neg (by simp)]
  · refine ⟨hkey, ?_, ?_, ?_⟩
    · have hmap : m₃.map = m.map ++ [(key, ⟨value, expiryOf ms now⟩)] := by
        rw [updateNextExpiryOnWrite_map]
        exact EntryMap.set_new hkey
      unfold TTLMap.keys
      rw [hmap, List.map_append]
      rfl
    · rw [updateNextExpiryOnWrite_evicted, List.append_nil]
      rfl
    · rw [updateNextExpiryOnWrite_maxSize]
      rfl

omit [DecidableEq α] [LinearOrder K] [Add K] [Zero K] [One K] in
theorem size_eq (m : TTLMap α V K) : m.size = m.keys.length := List.length_map .. |>.symm

theorem store_room (hmax : 0 < m.maxSize) (hkey : key ∉ m.keys) (hroom : m.size < m.maxSize)
    (value : V) (ms now : K) : Adds m key [] (store m key value ms now) := by
  obtain ⟨m₃, heq, hadds⟩ := store_new hmax hkey value ms now
  have hlen : m₃.size = m.size + 1 := by
    rw [size_eq, size_eq, ← List.nil_append m₃.keys, hadds.keys, List.length_append]
    rfl
  rw [heq, evictLoop_of_le (by rw [hadds.maxSize]; omega)]
  exact hadds

theorem store_full (hmax : 0 < m.maxSize) (hkey : key ∉ m.keys) (hfull : m.size = m.maxSize)
    (hnd : m.keys.Nodup) {k : α} (hfirst : m.keys.head? = some (some k)) (value : V) (ms now : K) :
    Adds m key [some k] (store m key value ms now) := by
  obtain ⟨m₃, heq, hadds⟩ := store_new hmax hkey value ms now
  have hkeys : m₃.keys = m.keys ++ [key] := hadds.keys
  have hlen : m₃.size = m.maxSize + 1 := by
    rw [size_eq, hkeys, List.length_append, ← hfull, size_eq]
    rfl
  have hnd' : m₃.keys.Nodup := by
    rw [hkeys]
    exact List.nodup_append.mpr ⟨hnd, by simp, by grind⟩
  have hfirst' : m₃.keys.head? = some (some k) := by
    rw [hkeys]
    simp [hfirst]
  rw [heq, hlen]
  unfold TTLMap.keys at hfirst'
  cases hmap : m₃.map with
  | nil => simp [hmap] at hfirst'
  | cons e rest =>
    obtain ⟨k', entry⟩ := e
    obtain rfl : k' = some k := by simpa [hmap] using hfirst'
    obtain ⟨hone, hrest⟩ := evictLoop_one m.maxSize hmap hnd' (by rw [hlen, hadds.maxSize])
    rw [hone]
    refine ⟨hkey, ?_, ?_, hadds.maxSize⟩
    · rw [← hkeys]
      unfold TTLMap.keys
      rw [hrest, hmap]
      rfl
    · show m₃.evicted ++ [some k] = _
      rw [hadds.evicted, List.append_nil]

/-! ## The index of expiries -/

/-- The index holds the expiry of every resident key that has one, and no other key. -/
def Indexed (m : TTLMap α V K) : Prop :=
  ∀ k, EntryMap.get k m.expirations =
    (EntryMap.get k m.map).bind fun entry => if entry.expiresAt = 0 then none else some entry.expiresAt

section
omit [Add K] [One K]

/-- An entry that is written, with its expiry. -/
theorem Indexed.write {m' : TTLMap α V K} (key : Option α) (entry : Entry V K) (h : Indexed m)
    (hmap : ∀ k, EntryMap.get k m'.map = if k = key then some entry else EntryMap.get k m.map)
    (hexp : ∀ k, EntryMap.get k m'.expirations =
      if k = key then (if entry.expiresAt = 0 then none else some entry.expiresAt)
      else EntryMap.get k m.expirations) : Indexed m' := by
  intro k
  rw [hmap, hexp]
  by_cases hk : k = key
  · rw [if_pos hk, if_pos hk]
    rfl
  · rw [if_neg hk, if_neg hk]
    exact h k

theorem Indexed.remove {m' : TTLMap α V K} (h : Indexed m) (hmap : m'.map = EntryMap.delete key m.map)
    (hexp : m'.expirations = EntryMap.delete key m.expirations) : Indexed m' := by
  intro k
  rw [hmap, hexp, EntryMap.get_delete, EntryMap.get_delete]
  by_cases hk : k = key
  · rw [if_pos hk, if_pos hk]
    rfl
  · rw [if_neg hk, if_neg hk]
    exact h k

theorem Indexed.congr {m' : TTLMap α V K} (h : Indexed m) (hmap : m'.map = m.map)
    (hexp : m'.expirations = m.expirations) : Indexed m' := by
  intro k
  rw [hmap, hexp]
  exact h k

theorem Indexed.index (m' : TTLMap α V K) (key : Option α) (entry : Entry V K) (h : Indexed m)
    (hmap : m'.map = EntryMap.set key entry m.map) (hexp : m'.expirations = m.expirations) :
    Indexed (index m' key entry.expiresAt) := by
  refine Indexed.write key entry h (fun k => ?_) fun k => ?_
  · show EntryMap.get k m'.map = _
    rw [hmap, EntryMap.get_set]
  · unfold PowerTTLMap.index
    dsimp only
    rw [hexp]
    by_cases h0 : entry.expiresAt = 0
    · rw [if_neg (by simpa using h0), if_pos h0, EntryMap.get_delete]
    · rw [if_pos h0, if_neg h0, EntryMap.get_set]

/-- Making a key the most recent one does not change the entries, and finds the expiry it looks
up. -/
theorem Indexed.refresh {entry : Entry V K} (h : Indexed m)
    (hentry : EntryMap.get key m.map = some entry) : Indexed (refresh m key entry) := by
  have hex : EntryMap.get key m.expirations =
      if entry.expiresAt = 0 then none else some entry.expiresAt := by
    rw [h key, hentry]
    rfl
  refine Indexed.write key entry h (fun k => ?_) fun k => ?_
  · unfold PowerTTLMap.refresh
    dsimp only
    rw [EntryMap.get_set, EntryMap.get_delete]
    by_cases hk : k = key <;> simp [hk]
  · unfold PowerTTLMap.refresh
    dsimp only
    rw [hex]
    by_cases h0 : entry.expiresAt = 0
    · rw [if_neg (by simpa using h0), if_pos h0]
      by_cases hk : k = key
      · rw [if_pos hk, hk, hex, if_pos h0]
      · rw [if_neg hk]
    · rw [if_pos h0, if_neg h0]
      dsimp only
      rw [EntryMap.get_set, EntryMap.get_delete]
      by_cases hk : k = key <;> simp [hk]

theorem Indexed.evictLoop (h : Indexed m) (fuel : ℕ) : Indexed (evictLoop fuel m) := by
  induction fuel generalizing m with
  | zero => exact h
  | succ fuel ih =>
    rw [PowerTTLMap.evictLoop]
    split
    · exact h
    · split
      · exact ih (h.remove rfl rfl)
      · exact h

end

omit [DecidableEq α] [Add K] [One K] in
@[simp] theorem updateNextExpiryOnWrite_expirations (a b : K) :
    (updateNextExpiryOnWrite m a b).expirations = m.expirations := by
  unfold updateNextExpiryOnWrite
  grind

theorem Indexed.store (h : Indexed m) (key : Option α) (value : V) (ms now : K) :
    Indexed (store m key value ms now) := by
  have h₁ := Indexed.index { m with map := EntryMap.set key ⟨value, expiryOf ms now⟩ m.map } key
    ⟨value, expiryOf ms now⟩ h rfl rfl
  have hset : EntryMap.get key (EntryMap.set key ⟨value, expiryOf ms now⟩ m.map) =
      some ⟨value, expiryOf ms now⟩ := by rw [EntryMap.get_set, if_pos rfl]
  unfold PowerTTLMap.store
  dsimp only
  by_cases hre : (EntryMap.get key m.map).isNone = false ∧ 0 < m.maxSize
  · rw [if_pos hre, if_neg (by simp [hre.1])]
    exact (h₁.refresh hset).congr (updateNextExpiryOnWrite_map _ _) (updateNextExpiryOnWrite_expirations _ _)
  · rw [if_neg hre]
    have h₃ := h₁.congr (updateNextExpiryOnWrite_map _ _)
      (updateNextExpiryOnWrite_expirations ((EntryMap.get key m.expirations).getD 0) (expiryOf ms now))
    split
    · exact h₃.evictLoop _
    · exact h₃

omit [Add K] [One K] in
theorem Indexed.expireKey (h : Indexed m) (entry : Entry V K) : Indexed (expireKey m key entry) :=
  h.remove rfl rfl

theorem Indexed.touch (h : Indexed m) (key : Option α) (ttl : Ttl K) (now now' : K) :
    Indexed (touch m key ttl now now').1 := by
  unfold PowerTTLMap.touch
  cases hget : EntryMap.get key m.map with
  | none => exact h
  | some entry =>
    dsimp only
    by_cases hexp : Expired entry now
    · rw [if_pos hexp]
      exact h.expireKey entry
    · rw [if_neg hexp]
      cases hms : resolveTtl ttl m.defaultTTL with
      | error e => exact h
      | ok ms =>
        dsimp only
        have h₁ := Indexed.index { m with map := EntryMap.set key ⟨entry.value, expiryOf ms now'⟩ m.map }
          key ⟨entry.value, expiryOf ms now'⟩ h rfl rfl
        have h₂ := h₁.congr (updateNextExpiryOnWrite_map _ _)
          (updateNextExpiryOnWrite_expirations entry.expiresAt (expiryOf ms now'))
        split
        · refine h₂.refresh ?_
          rw [updateNextExpiryOnWrite_map]
          exact (EntryMap.get_set ..).trans (if_pos rfl)
        · exact h₂

omit [Add K] [One K] in
theorem Indexed.sweep (h : Indexed m) (now : K) : Indexed (sweepExpirations m now) := by
  have hfold : ∀ (es : List (Option α × K)) (acc : TTLMap α V K × K), Indexed acc.1 →
      Indexed (es.foldl (sweepEntry now) acc).1 := by
    intro es
    induction es with
    | nil => exact fun _ h => h
    | cons e es ih =>
      intro acc hacc
      rw [List.foldl_cons]
      apply ih
      unfold sweepEntry
      by_cases hlate : e.2 ≠ 0 ∧ e.2 < now
      · rw [if_pos hlate]
        split
        · exact hacc.expireKey _
        · exact hacc
      · rw [if_neg hlate]
        split <;> exact hacc
  exact (hfold m.expirations (m, 0) h).congr rfl rfl

theorem call_indexed (h : Indexed m) (op : Op α V K) : Indexed (call m op) := by
  cases op with
  | set key value ttl now =>
    show Indexed (set m key value ttl now).1
    unfold set
    split
    · exact h
    · split
      · exact h
      · exact h.store key value _ now
  | get key now =>
    show Indexed (get m key now).1
    unfold get
    cases hget : EntryMap.get key m.map with
    | none => exact h
    | some entry =>
      dsimp only
      split
      · exact h.expireKey entry
      · split
        · exact h.refresh hget
        · exact h
  | has key now =>
    show Indexed (has m key now).1
    unfold has
    split
    · exact h
    · split
      · exact h.expireKey _
      · exact h
  | delete key => exact h.remove rfl rfl
  | touch key ttl now now' => exact h.touch key ttl now now'
  | purge now now' =>
    show Indexed (purge m now now').1
    unfold purge
    split
    · exact h
    · split
      · exact h
      · dsimp only
        split
        · exact h.sweep now'
        · exact h
  | clear => exact fun _ => rfl
  | dispose =>
    show Indexed (dispose m)
    unfold dispose
    split
    · exact h
    · exact fun _ => rfl

/-! ## Recency -/

omit [LinearOrder K] [Add K] [Zero K] [One K] in
theorem age_append (uses : List (Option α)) (k k' : Option α) :
    age (uses ++ [k]) k' = if k = k' then 0 else age uses k' + 1 := by
  unfold age
  rw [List.reverse_append, List.reverse_singleton, List.singleton_append, List.idxOf_cons]
  by_cases h : k = k'
  · rw [if_pos h, beq_iff_eq.mpr h, cond_true]
  · rw [if_neg h, beq_eq_false_iff_ne.mpr h, cond_false]

/-- The keys `ks` are there once each, the least recently used first. -/
structure Ordered (uses ks : List (Option α)) : Prop where
  nodup : ks.Nodup
  sorted : ks.Pairwise fun a b => age uses b < age uses a

section
variable {uses ks ks' : List (Option α)} {k : Option α}

omit [DecidableEq α] in
theorem Ordered.sublist [DecidableEq α] (h : Ordered uses ks) (hs : ks'.Sublist ks) : Ordered uses ks' :=
  ⟨h.nodup.sublist hs, h.sorted.sublist hs⟩

/-- A key that is used, and was not among the others, comes last. -/
theorem Ordered.append (h : Ordered uses ks) (hnew : k ∉ ks) : Ordered (uses ++ [k]) (ks ++ [k]) := by
  constructor
  · exact List.nodup_append.mpr ⟨h.nodup, by simp, by grind⟩
  · have hage : ∀ a ∈ ks, age (uses ++ [k]) a = age uses a + 1 := by
      intro a ha
      rw [age_append, if_neg fun heq : k = a => hnew (heq ▸ ha)]
    refine List.pairwise_append.mpr ⟨?_, List.pairwise_singleton _ _, ?_⟩
    · refine h.sorted.imp_of_mem fun ha hb hlt => ?_
      rw [hage _ ha, hage _ hb]
      omega
    · intro a ha b hb
      obtain rfl := List.mem_singleton.mp hb
      rw [hage a ha, age_append, if_pos rfl]
      omega

/-- The first of the keys is the one that was used least recently. -/
theorem Ordered.leastRecent_iff {k' : Option α} (h : Ordered uses (k :: ks)) :
    LeastRecent uses (k :: ks) k' ↔ k' = k := by
  obtain ⟨hfirst, -⟩ := List.pairwise_cons.mp h.sorted
  constructor
  · rintro ⟨hmem, hage⟩
    rcases List.mem_cons.mp hmem with heq | hrest
    · exact heq
    · have hlt := hfirst k' hrest
      have hle := hage k List.mem_cons_self
      omega
  · rintro rfl
    refine ⟨List.mem_cons_self, fun a ha => ?_⟩
    rcases List.mem_cons.mp ha with rfl | hrest
    · exact Nat.le_refl _
    · exact Nat.le_of_lt (hfirst a hrest)

end

/-- The keys are in the order they were last used, and there are not too many. -/
structure Kept (s : Traced α V K) : Prop where
  ordered : Ordered s.uses s.ttlMap.keys
  bounded : s.ttlMap.size ≤ s.ttlMap.maxSize

section
variable {s : Traced α V K} {m' : TTLMap α V K}

section
omit [LinearOrder K] [Add K] [Zero K] [One K]

theorem Kept.shrinks (h : Kept s) (hs : Shrinks s.ttlMap m') : Kept ⟨m', s.uses⟩ := by
  refine ⟨h.ordered.sublist hs.keys, ?_⟩
  have hle := hs.keys.length_le
  have hbound := h.bounded
  rw [size_eq] at hbound
  show m'.size ≤ m'.maxSize
  rw [size_eq, hs.maxSize]
  omega

theorem Kept.promotes (h : Kept s) (hp : Promotes s.ttlMap key m') : Kept ⟨m', s.uses ++ [key]⟩ := by
  constructor
  · show Ordered (s.uses ++ [key]) m'.keys
    rw [hp.keys]
    exact (h.ordered.sublist List.filter_sublist).append (by simp)
  · have hlt : (s.ttlMap.keys.filter fun k => !decide (k = key)).length < s.ttlMap.keys.length :=
      List.length_filter_lt_length_iff_exists.mpr ⟨key, hp.mem, by simp⟩
    have hbound := h.bounded
    rw [size_eq] at hbound
    show m'.size ≤ m'.maxSize
    rw [size_eq, hp.keys, hp.maxSize, List.length_append, List.length_singleton]
    omega

theorem Kept.adds {gone : List (Option α)} (h : Kept s) (ha : Adds s.ttlMap key gone m')
    (hroom : s.ttlMap.size < s.ttlMap.maxSize + gone.length) : Kept ⟨m', s.uses ++ [key]⟩ := by
  have hall : Ordered (s.uses ++ [key]) (gone ++ m'.keys) := ha.keys ▸ h.ordered.append ha.fresh
  refine ⟨hall.sublist (List.sublist_append_right _ _), ?_⟩
  have hlen := congrArg List.length ha.keys
  rw [List.length_append, List.length_append, List.length_singleton] at hlen
  rw [size_eq] at hroom
  show m'.size ≤ m'.maxSize
  rw [size_eq, ha.maxSize]
  omega

end

end

omit [Add K] [One K] in
theorem resolved {ttl : Ttl K} {fallback : K} (h : (resolveTtl ttl fallback).isOk = true) :
    ∃ ms, resolveTtl ttl fallback = .ok ms := by
  cases hms : resolveTtl ttl fallback with
  | error e => rw [hms] at h; cases h
  | ok ms => exact ⟨ms, rfl⟩

omit [DecidableEq α] [Add K] [Zero K] [One K] [LinearOrder K] in
/-- A key that is added leaves the keys that were there, but for those that made room. -/
theorem Adds.mem_keys {m' : TTLMap α V K} {gone : List (Option α)} (ha : Adds m key gone m')
    (hnd : m.keys.Nodup) (hgone : ∀ k ∈ gone, k ∈ m.keys) (k : Option α) :
    k ∈ m'.keys ↔ k = key ∨ k ∈ m.keys ∧ k ∉ gone := by
  have hnd' : (gone ++ m'.keys).Nodup := by
    rw [ha.keys]
    exact List.nodup_append.mpr ⟨hnd, by simp, fun a ha' b hb hab => ha.fresh (by grind)⟩
  have hmem : k ∈ gone ++ m'.keys ↔ k ∈ m.keys ++ [key] := by rw [ha.keys]
  rw [List.mem_append, List.mem_append, List.mem_singleton] at hmem
  have hdisj : k ∈ gone → k ∉ m'.keys := fun h h' => (List.nodup_append.mp hnd').2.2 k h k h' rfl
  have hfresh := ha.fresh
  constructor
  · intro h
    rcases hmem.mp (Or.inr h) with hold | hnew
    · exact Or.inr ⟨hold, fun h' => hdisj h' h⟩
    · exact Or.inl hnew
  · rintro (rfl | ⟨hold, hstays⟩)
    · exact (hmem.mpr (Or.inr rfl)).resolve_left fun h => hfresh (hgone _ h)
    · exact (hmem.mpr (Or.inl hold)).resolve_left hstays

theorem set_refused {ttl : Ttl K} (h : ¬Accepted m ttl) (value : V) (now : K) :
    (set m key value ttl now).1 = m := by
  unfold set
  by_cases hd : m.disposed = true
  · rw [if_pos hd]
  · rw [if_neg hd]
    cases hms : resolveTtl ttl m.defaultTTL with
    | error e => rfl
    | ok ms => exact absurd ⟨by simpa using hd, by rw [hms]; rfl⟩ h

theorem set_accepted (key : Option α) {ttl : Ttl K} (h : Accepted m ttl) (value : V) (now : K) :
    ∃ ms, (set m key value ttl now).1 = store m key value ms now := by
  obtain ⟨ms, hms⟩ := resolved h.2
  refine ⟨ms, ?_⟩
  unfold set
  rw [h.1, if_neg Bool.false_ne_true, hms]

section
variable {s : Traced α V K}

theorem set_effect (h : Kept s) (hmax : 0 < s.ttlMap.maxSize) {ttl : Ttl K} {value : V} {now : K}
    (hacc : Accepted s.ttlMap ttl) (hok : SparesUndefined s (.set key value ttl now)) :
    Promotes s.ttlMap key (set s.ttlMap key value ttl now).1 ∨
    s.ttlMap.size < s.ttlMap.maxSize ∧ Adds s.ttlMap key [] (set s.ttlMap key value ttl now).1 ∨
    s.ttlMap.size = s.ttlMap.maxSize ∧ ∃ k, LeastRecent s.uses s.ttlMap.keys k ∧
      Adds s.ttlMap key [k] (set s.ttlMap key value ttl now).1 := by
  obtain ⟨ms, heq⟩ := set_accepted key hacc value now
  rw [heq]
  by_cases hkey : key ∈ s.ttlMap.keys
  · exact Or.inl (store_resident hmax hkey value ms now)
  · rcases Nat.lt_or_eq_of_le h.bounded with hroom | hfull
    · exact Or.inr (Or.inl ⟨hroom, store_room hmax hkey hroom value ms now⟩)
    · have hspared := hok ⟨hacc, hkey, hfull⟩
      cases hkeys : s.ttlMap.keys with
      | nil =>
        rw [size_eq, hkeys, List.length_nil] at hfull
        omega
      | cons first rest =>
        have hlru : ∀ k, LeastRecent s.uses s.ttlMap.keys k ↔ k = first := by
          rw [hkeys]
          intro k
          exact (hkeys ▸ h.ordered).leastRecent_iff
        cases first with
        | none => exact absurd ((hlru none).mpr rfl) hspared
        | some k =>
          refine Or.inr (Or.inr ⟨hfull, some k, hkeys ▸ (hlru (some k)).mpr rfl, ?_⟩)
          exact store_full hmax hkey hfull h.ordered.nodup (by rw [hkeys]; rfl) value ms now

/-- A call keeps the map in order and within its bound, and takes out what it should. -/
structure Keeps (s : Traced α V K) (op : Op α V K) : Prop where
  kept : Kept (step s op)
  maxSize : (step s op).ttlMap.maxSize = s.ttlMap.maxSize
  evicts : EvictsLeastRecent s op

variable {op : Op α V K}

theorem Keeps.shrinks (h : Kept s) (hs : Shrinks s.ttlMap (call s.ttlMap op)) (hused : used s.ttlMap op = [])
    (hover : ¬Overflows s.ttlMap op)
    (hset : ∀ key value ttl now, op = .set key value ttl now → ¬Accepted s.ttlMap ttl) : Keeps s op := by
  have hstep : step s op = ⟨call s.ttlMap op, s.uses⟩ := by rw [step, hused, List.append_nil]
  refine ⟨hstep ▸ h.shrinks hs, hs.maxSize, ?_, ?_⟩
  · rw [if_neg hover]
    exact hs.evicted
  · exact fun key value ttl now heq hacc => absurd hacc (hset key value ttl now heq)

theorem Keeps.promotes (h : Kept s) (hp : Promotes s.ttlMap key (call s.ttlMap op))
    (hused : used s.ttlMap op = [key]) (hover : ¬Overflows s.ttlMap op)
    (hset : ∀ key' value ttl now, op = .set key' value ttl now → key' = key) : Keeps s op := by
  have hstep : step s op = ⟨call s.ttlMap op, s.uses ++ [key]⟩ := by rw [step, hused]
  refine ⟨hstep ▸ h.promotes hp, hp.maxSize, ?_, ?_⟩
  · rw [if_neg hover]
    exact hp.evicted
  · intro key' value ttl now heq _ k
    obtain rfl := hset key' value ttl now heq
    have hkeys : (step s op).ttlMap.keys = _ := hp.keys
    have hevicted : (step s op).ttlMap.evicted = _ := hp.evicted
    rw [hkeys, hevicted, List.drop_length, List.mem_append, List.mem_singleton, List.mem_filter]
    by_cases hk : k = key' <;> simp [hk]

theorem Keeps.adds {value : V} {ttl : Ttl K} {now : K} {gone : List (Option α)} (h : Kept s)
    (hacc : Accepted s.ttlMap ttl) (ha : Adds s.ttlMap key gone (set s.ttlMap key value ttl now).1)
    (hgone : ∀ k ∈ gone, k ∈ s.ttlMap.keys) (hroom : s.ttlMap.size < s.ttlMap.maxSize + gone.length)
    (hevicts : if Overflows s.ttlMap (.set key value ttl now) then
        ∃ k, LeastRecent s.uses s.ttlMap.keys k ∧ gone = [k] else gone = []) :
    Keeps s (.set key value ttl now) := by
  have hused : used s.ttlMap (.set key value ttl now) = [key] := if_pos hacc
  have hstep : step s (.set key value ttl now) =
      ⟨(set s.ttlMap key value ttl now).1, s.uses ++ [key]⟩ := by rw [step, hused]; rfl
  have hevicted : (step s (.set key value ttl now)).ttlMap.evicted = s.ttlMap.evicted ++ gone := ha.evicted
  refine ⟨hstep ▸ h.adds ha hroom, ha.maxSize, ?_, ?_⟩
  · rw [hevicted]
    by_cases hover : Overflows s.ttlMap (.set key value ttl now)
    · rw [if_pos hover] at hevicts ⊢
      obtain ⟨k, hlru, rfl⟩ := hevicts
      exact ⟨k, hlru, rfl⟩
    · rw [if_neg hover] at hevicts ⊢
      rw [hevicts, List.append_nil]
  · intro key' value' ttl' now' heq _ k
    obtain ⟨rfl, -⟩ := Op.set.inj heq
    rw [hevicted, List.drop_left]
    exact ha.mem_keys h.ordered.nodup hgone k

theorem step_keeps (h : Kept s) (hmax : 0 < s.ttlMap.maxSize) (op : Op α V K)
    (hok : SparesUndefined s op) : Keeps s op := by
  cases op with
  | set key value ttl now =>
    by_cases hacc : Accepted s.ttlMap ttl
    · rcases set_effect h hmax hacc hok with hp | ⟨hroom, ha⟩ | ⟨hfull, k, hlru, ha⟩
      · refine Keeps.promotes h hp (if_pos hacc) (fun hover => hover.2.1 hp.mem) ?_
        intro key' _ _ _ heq
        exact (Op.set.inj heq).1.symm
      · refine Keeps.adds h hacc ha (by simp) (by simpa using hroom) ?_
        rw [if_neg fun hover => Nat.ne_of_lt hroom hover.2.2]
      · refine Keeps.adds h hacc ha (by simpa using hlru.1) (by rw [hfull]; simp) ?_
        rw [if_pos ⟨hacc, ha.fresh, hfull⟩]
        exact ⟨k, hlru, rfl⟩
    · refine Keeps.shrinks h ?_ (if_neg hacc) (fun hover => hacc hover.1) ?_
      · show Shrinks s.ttlMap (set s.ttlMap key value ttl now).1
        rw [set_refused hacc]
        exact Shrinks.refl _
      · intro _ _ _ _ heq
        obtain ⟨-, -, rfl, -⟩ := Op.set.inj heq
        exact hacc
  | get key now =>
    rcases get_effect hmax key now with ⟨hlive, hp⟩ | ⟨hdead, hs⟩
    · exact Keeps.promotes h hp (if_pos hlive) id (by simp)
    · exact Keeps.shrinks h hs (if_neg hdead) id (by simp)
  | touch key ttl now now' =>
    rcases touch_effect hmax key ttl now now' with ⟨hlive, hp⟩ | ⟨hdead, hs⟩
    · exact Keeps.promotes h hp (if_pos hlive) id (by simp)
    · exact Keeps.shrinks h hs (if_neg hdead) id (by simp)
  | has key now => exact Keeps.shrinks h (has_shrinks _ key now) rfl id (by simp)
  | delete key => exact Keeps.shrinks h (delete_shrinks _ key) rfl id (by simp)
  | purge now now' => exact Keeps.shrinks h (purge_shrinks _ now now') rfl id (by simp)
  | clear => exact Keeps.shrinks h (clear_shrinks _) rfl id (by simp)
  | dispose => exact Keeps.shrinks h (dispose_shrinks _) rfl id (by simp)

end

/-! ## The bound -/

/-- A map with a `maxSize` of at least one never holds more keys than that, and what it takes out to
make room is the resident key that was used least recently, in every run that never makes room where
`undefined` is that key. -/
theorem bounded_by_recency {o : Options K} {maxSize : ℚ} (hmax : o.maxSize = some maxSize)
    (hone : 1 ≤ maxSize) (ops : List (Op α V K)) (hok : Meets step SparesUndefined (start o) ops) :
    Always step (fun s => (s.ttlMap.size : ℚ) ≤ maxSize) (start o) ops ∧
      Meets step EvictsLeastRecent (start o) ops := by
  have hbound : (start o : Traced α V K).ttlMap.maxSize = ⌊maxSize⌋₊ := by
    unfold start new
    rw [hmax]
    exact if_pos (lt_of_lt_of_le one_pos hone)
  have hpos : 0 < ⌊maxSize⌋₊ := Nat.floor_pos.mpr hone
  let P (s : Traced α V K) : Prop := Kept s ∧ s.ttlMap.maxSize = ⌊maxSize⌋₊
  have hstart : P (start o) := ⟨⟨⟨List.nodup_nil, List.Pairwise.nil⟩, Nat.zero_le _⟩, hbound⟩
  have hkeeps : ∀ s op, P s → SparesUndefined s op → Keeps s op := fun s op hs hok =>
    step_keeps hs.1 (hs.2 ▸ hpos) op hok
  have hstep : ∀ s op, P s → SparesUndefined s op → P (step s op) := fun s op hs hok =>
    ⟨(hkeeps s op hs hok).kept, (hkeeps s op hs hok).maxSize.trans hs.2⟩
  constructor
  · refine (always_of_meets hstep hstart hok).mono fun s hs => ?_
    have hle : s.ttlMap.size ≤ ⌊maxSize⌋₊ := hs.2 ▸ hs.1.bounded
    exact (Nat.le_floor_iff (le_trans zero_le_one hone)).mp hle
  · exact hok.imp hstep (fun s op hs hok => (hkeeps s op hs hok).evicts) hstart

end

/-- Two keys may stay, the first of them is used again, and the other makes room for a third. -/
theorem bounded_by_recency_two :
    let o : Options ℤ := ⟨0, some 2⟩
    let ops : List (Op ℕ ℕ ℤ) := [.set (some 1) 10 .nullish 0, .set none 20 (.ms 5) 0, .get (some 1) 1,
      .get none 2, .set (some 3) 30 .nullish 3]
    Always step (fun s => (s.ttlMap.size : ℚ) ≤ 2) (start o) ops ∧
      Meets step EvictsLeastRecent (start o) ops :=
  bounded_by_recency rfl (by norm_num) _ (by decide +kernel)

/-- `undefined` is not taken out of a map that it fills, which then holds a key too many; and an
expired key makes room before a key that is not expired. -/
theorem exceeds_and_evicts_expired :
    let o (n : ℚ) : Options ℤ := ⟨0, some n⟩
    let s := run step (start (o 1)) [Op.set (none : Option ℕ) 10 .nullish 0, .set (some 1) 20 .nullish 0]
    let t := run step (start (o 2)) [Op.set (some 1) 10 (.ms 5) 0, .set (some 2) 20 .nullish 1]
    s.ttlMap.size = 2 ∧
      ¬Live t.ttlMap (some 1) 100 ∧ Live t.ttlMap (some 2) 100 ∧
      (step t (.set (some 3) 30 .nullish 100)).ttlMap.evicted = [some 1] := by
  decide +kernel

end PerformanceHelpers.PowerTTLMap
