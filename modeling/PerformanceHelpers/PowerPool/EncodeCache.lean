import Mathlib.Algebra.BigOperators.Group.List.Basic
import Mathlib.Tactic.NormNum
import PerformanceHelpers.EntryMap
import PerformanceHelpers.Number
import PerformanceHelpers.Run

/- The encode cache of a `PowerPool` (`src/helpers/powerPool.js`, `_encodeForTransfer`).

   The cache is a `Map` from the JSON text of a message to its bytes, in the order of
   use, with a running total of the bytes. A message that is not cached yet is encoded,
   old entries are dropped in batches until it fits, and it is put last. `hits` is not the
   code's: it lists the messages that were found, with the bytes handed out.

   What is proved:
     1. `evict_fits` — the loop ends with room for the new entry, or with no entry.
     2. `step_sound` — the total is the sum over the entries, whatever is encoded.
     3. `cache_keeps_its_limits` — the limits and the bytes of the hits, where no message
        is a shared buffer and every entry fits the byte limit by itself. -/
namespace PerformanceHelpers.PowerPool.EncodeCache

abbrev Bytes := List UInt8

/-- What `JSON.stringify` answers: a text, `undefined`, or an error. -/
inductive Json where
  | text (s : String)
  | undefined
  | throws
  deriving DecidableEq

/-- What is read of a message: its JSON, and, for a `SharedArrayBuffer`, the bytes in it
(buffers of the other kinds are not encoded by the pool). -/
structure Message where
  json : Json
  shared : Option Bytes := none
  deriving DecidableEq

/-- What the encoder throws: the error of `JSON.stringify`, or its own for a value that
has no JSON. -/
inductive Failure where
  | stringify
  | notEncodable
  deriving DecidableEq

/-- `encodeCacheLimit` and `encodeCacheByteLimit`, as the constructor is given them. -/
structure Options where
  encodeCacheLimit : Option Number := none
  encodeCacheByteLimit : Option Number := none
  deriving DecidableEq

structure Cache where
  encodeCache : List (Option String × Bytes) := []
  encodeCacheBytes : ℕ := 0
  hits : List (Message × Bytes) := []
  deriving DecidableEq

/-- `_encodeCacheLimit`: a limit that is not truthy is not given. -/
def Options.entryLimit (o : Options) : WithTop ℚ :=
  match o.encodeCacheLimit with
  | some (.finite q) => if q = 0 then (64 : ℚ) else (max 16 q : ℚ)
  | some .infinity => ⊤
  | some .negInfinity => (16 : ℚ)
  | some .nan | none => (64 : ℚ)

/-- `_encodeCacheByteLimit`. -/
def Options.byteLimit (o : Options) : WithTop ℚ :=
  match o.encodeCacheByteLimit with
  | some (.finite q) => (max 0 q : ℚ)
  | _ => ⊤

/-- `ENCODE_CACHE_LARGE_KEY_LENGTH`. -/
def largeKeyLength : ℕ := 2048

/-- `length` of a string: its UTF-16 units. -/
def utf16Length (s : String) : ℕ := (s.toList.map fun c => if c.toNat < 0x10000 then 1 else 2).sum

def encode (s : String) : Bytes := s.toList.flatMap String.utf8EncodeChar

/-- `o2u8`, for the values the pool encodes. -/
def o2u8 (m : Message) (preStringified : Option String) : Except Failure Bytes :=
  match m.shared with
  | some bytes => .ok bytes
  | none =>
    match preStringified, m.json with
    | some s, _ => .ok (encode s)
    | none, .text s => .ok (encode s)
    | none, .undefined => .error .notEncodable
    | none, .throws => .error .stringify

variable (o : Options)

def needEviction (willBeBytes : ℕ) (c : Cache) : Bool :=
  decide (o.entryLimit ≤ ((c.encodeCache.length : ℚ) : WithTop ℚ)) ||
    decide (o.byteLimit < (((c.encodeCacheBytes + willBeBytes : ℕ) : ℚ) : WithTop ℚ))

/-- `BATCH`. -/
def batch : ℕ := 10

def forget (c : Cache) (k : Option String) : Cache :=
  let removedBytes := ((EntryMap.get k c.encodeCache).map List.length).getD 0
  { c with
    encodeCacheBytes := c.encodeCacheBytes - removedBytes
    encodeCache := EntryMap.delete k c.encodeCache }

/-- One round of the eviction. Nothing the inner loop does changes `needEviction`, so it
takes a whole batch of keys, or all there are. -/
def evictBatch (c : Cache) : Cache :=
  ((c.encodeCache.map Prod.fst).take batch).foldl forget c

/-- The eviction: a round for as long as one is needed and finds an entry. A round drops
an entry, so `fuel` is the number of entries. -/
def evict (willBeBytes : ℕ) : ℕ → Cache → Cache
  | 0, c => c
  | fuel + 1, c => if needEviction o willBeBytes c then evict willBeBytes fuel (evictBatch c) else c

/-- What is cached is found, and put last, or encoded, and put in. An error of the encoder
is answered by encoding once more, without the text. -/
def encodeCached (m : Message) (s : Option String) (c : Cache) : Cache × Except Failure Bytes :=
  match EntryMap.get s c.encodeCache with
  | some hit =>
    ({ c with
      encodeCache := EntryMap.set s hit (EntryMap.delete s c.encodeCache)
      hits := c.hits ++ [(m, hit)] }, .ok hit)
  | none =>
    match o2u8 m s with
    | .error _ => (c, o2u8 m none)
    | .ok u8 =>
      let c := evict o u8.length c.encodeCache.length c
      ({ c with
        encodeCache := EntryMap.set s u8 c.encodeCache
        encodeCacheBytes := c.encodeCacheBytes + u8.length }, .ok u8)

def encodeForTransfer (m : Message) (useCache : Bool) (c : Cache) : Cache × Except Failure Bytes :=
  if useCache then
    match m.json with
    | .throws => (c, o2u8 m none)
    | .undefined => encodeCached o m none c
    | .text s =>
      if largeKeyLength < utf16Length s then (c, o2u8 m (some s)) else encodeCached o m (some s) c
  else (c, o2u8 m none)

/-- A call of `_encodeForTransfer`. -/
structure Call where
  message : Message
  useCache : Bool := true
  deriving DecidableEq

def step (c : Cache) (e : Call) : Cache := (encodeForTransfer o e.message e.useCache c).1

/-! ## The running total -/

def total (m : List (Option String × Bytes)) : ℕ := (m.map fun e => e.2.length).sum

/-- The keys are distinct, and the running total is the bytes of the entries. -/
structure Sound (c : Cache) : Prop where
  keys : (c.encodeCache.map Prod.fst).Nodup
  bytes : c.encodeCacheBytes = total c.encodeCache

variable {o} {c : Cache} {k : Option String} {m : List (Option String × Bytes)} {w n : ℕ}

theorem total_append (m m' : List (Option String × Bytes)) : total (m ++ m') = total m + total m' := by
  unfold total
  rw [List.map_append, List.sum_append]

/-- The bytes of a key go with its entry. -/
theorem total_delete (h : (m.map Prod.fst).Nodup) :
    total (EntryMap.delete k m) + ((EntryMap.get k m).map List.length).getD 0 = total m := by
  induction m with
  | nil => rfl
  | cons e m ih =>
    have hnodup : (e.1 :: m.map Prod.fst).Nodup := by simpa using h
    obtain ⟨hnew, hrest⟩ := List.nodup_cons.mp hnodup
    by_cases hek : e.1 = k
    · subst hek
      rw [EntryMap.delete_first h, EntryMap.get, if_pos rfl]
      change total m + e.2.length = e.2.length + total m
      exact Nat.add_comm _ _
    · have hdelete : EntryMap.delete k (e :: m) = e :: EntryMap.delete k m := by
        unfold EntryMap.delete
        rw [List.filter_cons_of_pos (by simpa using hek)]
      rw [hdelete, EntryMap.get, if_neg hek]
      change e.2.length + total (EntryMap.delete k m) + _ = e.2.length + total m
      rw [Nat.add_assoc, ih hrest]

theorem keys_delete (h : (m.map Prod.fst).Nodup) : ((EntryMap.delete k m).map Prod.fst).Nodup := by
  rw [EntryMap.delete_keys]
  exact h.filter _

theorem Sound.forget (h : Sound c) : Sound (forget c k) := by
  refine ⟨keys_delete h.keys, ?_⟩
  have htotal := total_delete (k := k) h.keys
  have hbytes := h.bytes
  unfold EncodeCache.forget
  dsimp only
  omega

theorem Sound.forgetAll (h : Sound c) (ks : List (Option String)) : Sound (ks.foldl EncodeCache.forget c) := by
  induction ks generalizing c with
  | nil => exact h
  | cons k ks ih => exact ih h.forget

theorem Sound.evict (h : Sound c) : Sound (evict o w n c) := by
  induction n generalizing c with
  | zero => exact h
  | succ n ih =>
    rw [EncodeCache.evict]
    split
    · exact ih (h.forgetAll _)
    · exact h

/-! ## What the eviction leaves -/

/-- Deleting the first keys drops their entries. -/
theorem forgetAll_take (h : (c.encodeCache.map Prod.fst).Nodup) (n : ℕ) :
    (((c.encodeCache.map Prod.fst).take n).foldl forget c).encodeCache = c.encodeCache.drop n := by
  induction n generalizing c with
  | zero => rfl
  | succ n ih =>
    cases hm : c.encodeCache with
    | nil => exact hm
    | cons e m =>
      rw [hm] at h
      have hforget : (forget c e.1).encodeCache = m := by
        change EntryMap.delete e.1 c.encodeCache = m
        rw [hm]
        exact EntryMap.delete_first h
      rw [List.map_cons, List.take_succ_cons, List.foldl_cons, List.drop_succ_cons, ← hforget]
      apply ih
      rw [hforget]
      exact (List.nodup_cons.mp h).2

theorem evictBatch_cache (h : Sound c) : (evictBatch c).encodeCache = c.encodeCache.drop batch :=
  forgetAll_take h.keys batch

theorem evict_suffix (h : Sound c) : (evict o w n c).encodeCache <:+ c.encodeCache := by
  induction n generalizing c with
  | zero => exact List.suffix_refl _
  | succ n ih =>
    rw [evict]
    split
    · refine (ih (h.forgetAll _)).trans ?_
      rw [show (((c.encodeCache.map Prod.fst).take batch).foldl forget c).encodeCache = _ from
        evictBatch_cache h]
      exact List.drop_suffix _ _
    · exact List.suffix_refl _

/-- The loop stops where there is room, or where nothing is left. -/
theorem evict_fits (h : Sound c) (hfuel : c.encodeCache.length ≤ n) :
    needEviction o w (evict o w n c) = false ∨ (evict o w n c).encodeCache = [] := by
  induction n generalizing c with
  | zero =>
    right
    exact List.length_eq_zero_iff.mp (Nat.le_zero.mp hfuel)
  | succ n ih =>
    rw [evict]
    split
    · apply ih (h.forgetAll _)
      have hcache := congrArg List.length (evictBatch_cache h)
      rw [List.length_drop] at hcache
      unfold evictBatch at hcache
      unfold batch at hcache ⊢
      omega
    · next hneed =>
      left
      simpa using hneed

theorem hits_forgetAll (ks : List (Option String)) : (ks.foldl forget c).hits = c.hits := by
  induction ks generalizing c with
  | nil => rfl
  | cons k ks ih => exact ih

theorem hits_evict : (evict o w n c).hits = c.hits := by
  induction n generalizing c with
  | zero => rfl
  | succ n ih =>
    rw [evict]
    split
    · rw [ih]
      exact hits_forgetAll _
    · rfl

/-! ## A call -/

variable {e : Call} {s : Option String} {u8 : Bytes}

/-- A miss puts a key in that the eviction has not brought back. -/
theorem evict_absent (h : Sound c) (hk : EntryMap.get k c.encodeCache = none) :
    k ∉ (evict o w n c).encodeCache.map Prod.fst := by
  intro hmem
  have hmem' := ((evict_suffix h).map Prod.fst).subset hmem
  rw [EntryMap.mem_keys, hk] at hmem'
  cases hmem'

inductive Does (o : Options) (e : Call) (c : Cache) : Cache → Prop where
  | nothing : Does o e c c
  | hit (s : Option String) (bytes : Bytes) (hs : ∀ t, s = some t → e.message.json = .text t)
      (hget : EntryMap.get s c.encodeCache = some bytes) :
      Does o e c { c with
        encodeCache := EntryMap.set s bytes (EntryMap.delete s c.encodeCache)
        hits := c.hits ++ [(e.message, bytes)] }
  | miss (s : Option String) (u8 : Bytes) (huse : e.useCache = true)
      (hs : ∀ t, s = some t → e.message.json = .text t ∧ utf16Length t ≤ largeKeyLength)
      (hnone : s = none → e.message.json = .undefined)
      (hget : EntryMap.get s c.encodeCache = none) (hu8 : o2u8 e.message s = .ok u8) :
      Does o e c { evict o u8.length c.encodeCache.length c with
        encodeCache := (evict o u8.length c.encodeCache.length c).encodeCache ++ [(s, u8)]
        encodeCacheBytes := (evict o u8.length c.encodeCache.length c).encodeCacheBytes + u8.length }

theorem encodeCached_does (h : Sound c) (huse : e.useCache = true)
    (hs : ∀ t, s = some t → e.message.json = .text t ∧ utf16Length t ≤ largeKeyLength)
    (hnone : s = none → e.message.json = .undefined) :
    Does o e c (encodeCached o e.message s c).1 := by
  unfold encodeCached
  split
  · next bytes hget => exact .hit s bytes (fun t ht => (hs t ht).1) hget
  · next hget =>
    split
    · exact .nothing
    · next u8 hu8 =>
      dsimp only
      rw [EntryMap.set_new (evict_absent h hget)]
      exact .miss s u8 huse hs hnone hget hu8

theorem step_does (h : Sound c) : Does o e c (step o c e) := by
  unfold step encodeForTransfer
  split
  · next huse =>
    split
    · exact .nothing
    · next hjson =>
      exact encodeCached_does h huse (fun t ht => by cases ht) fun _ => hjson
    · next t hjson =>
      split
      · exact .nothing
      · next hlong =>
        refine encodeCached_does h huse (fun t' ht => ?_) fun hnone => by cases hnone
        injection ht with ht
        subst ht
        exact ⟨hjson, not_lt.mp hlong⟩
  · exact .nothing

theorem step_sound (h : Sound c) : Sound (step o c e) := by
  generalize hc' : step o c e = c'
  have hdoes : Does o e c c' := hc' ▸ step_does h
  cases hdoes with
  | nothing => exact h
  | hit s bytes _ hget =>
    have htotal := total_delete (k := s) h.keys
    rw [hget] at htotal
    constructor
    · exact EntryMap.nodup_set (keys_delete h.keys)
    · dsimp only
      rw [EntryMap.set_delete, total_append, h.bytes, ← htotal]
      rfl
  | miss s u8 _ _ _ hget hu8 =>
    have hevict := h.evict (o := o) (w := u8.length) (n := c.encodeCache.length)
    have habsent := evict_absent (o := o) (w := u8.length) (n := c.encodeCache.length) h hget
    constructor
    · rw [List.map_append, List.nodup_append]
      refine ⟨hevict.keys, List.nodup_singleton _, ?_⟩
      intro a ha b hb hab
      rw [List.map_singleton, List.mem_singleton] at hb
      have has : a = s := hab.trans hb
      exact habsent (has ▸ ha)
    · dsimp only
      rw [total_append, hevict.bytes]
      rfl

/-! ## The limits -/

variable (o) in
/-- The limit of the entries is a whole number, or there is none. -/
def Options.Whole : Prop := ∀ q : ℚ, o.encodeCacheLimit = some (.finite q) → q.den = 1

theorem Options.sixteen_le (o : Options) : ((16 : ℚ) : WithTop ℚ) ≤ o.entryLimit := by
  unfold Options.entryLimit
  split
  · next q _ =>
    split
    · exact WithTop.coe_le_coe.mpr (by norm_num)
    · exact WithTop.coe_le_coe.mpr (le_max_left _ _)
  · exact le_top
  · exact le_rfl
  · exact WithTop.coe_le_coe.mpr (by norm_num)
  · exact WithTop.coe_le_coe.mpr (by norm_num)

theorem Options.Whole.limit (h : o.Whole) : o.entryLimit = ⊤ ∨ ∃ z : ℤ, o.entryLimit = ((z : ℚ) : WithTop ℚ) := by
  unfold Options.entryLimit
  split
  · next q hq =>
    right
    split
    · exact ⟨64, rfl⟩
    · have hz : (q.num : ℚ) = q := (Rat.den_eq_one_iff q).mp (h q hq)
      refine ⟨max 16 q.num, ?_⟩
      rw [Int.cast_max, hz]
      rfl
  · exact .inl rfl
  · exact .inr ⟨16, rfl⟩
  · exact .inr ⟨64, rfl⟩
  · exact .inr ⟨64, rfl⟩

/-- Where fewer entries than the limit are there, one more is within it. -/
theorem Options.Whole.succ_le (h : o.Whole) {n : ℕ} (hn : ((n : ℚ) : WithTop ℚ) < o.entryLimit) :
    (((n + 1 : ℕ) : ℚ) : WithTop ℚ) ≤ o.entryLimit := by
  rcases h.limit with htop | ⟨z, hz⟩
  · rw [htop]
    exact le_top
  · rw [hz] at hn ⊢
    have hlt : (n : ℚ) < (z : ℚ) := WithTop.coe_lt_coe.mp hn
    have hlt' : (n : ℤ) < z := by exact_mod_cast hlt
    have hle : ((n + 1 : ℕ) : ℤ) ≤ z := by omega
    apply WithTop.coe_le_coe.mpr
    exact_mod_cast hle

variable (o) in
/-- The message is no shared buffer, and where it is cached its bytes are within the byte
limit. -/
structure Fits (e : Call) : Prop where
  plain : e.message.shared = none
  bytes : ∀ t, e.useCache = true → e.message.json = .text t → utf16Length t ≤ largeKeyLength →
    (((encode t).length : ℚ) : WithTop ℚ) ≤ o.byteLimit

variable (o) in
/-- What the cache is to keep: the running total, both limits, and the bytes of a hit. -/
structure Keeps (c : Cache) : Prop where
  total : c.encodeCacheBytes = total c.encodeCache
  entries : ((c.encodeCache.length : ℚ) : WithTop ℚ) ≤ o.entryLimit
  bytes : ((c.encodeCacheBytes : ℚ) : WithTop ℚ) ≤ o.byteLimit
  hits : ∀ hit ∈ c.hits, o2u8 hit.1 none = .ok hit.2

instance : Decidable (Keeps o c) :=
  decidable_of_iff (c.encodeCacheBytes = EncodeCache.total c.encodeCache ∧
      ((c.encodeCache.length : ℚ) : WithTop ℚ) ≤ o.entryLimit ∧
      ((c.encodeCacheBytes : ℚ) : WithTop ℚ) ≤ o.byteLimit ∧
      ∀ hit ∈ c.hits, o2u8 hit.1 none = .ok hit.2)
    ⟨fun h => ⟨h.1, h.2.1, h.2.2.1, h.2.2.2⟩, fun h => ⟨h.total, h.entries, h.bytes, h.hits⟩⟩

structure Kept (o : Options) (c : Cache) : Prop where
  sound : Sound c
  entries : ((c.encodeCache.length : ℚ) : WithTop ℚ) ≤ o.entryLimit
  bytes : ((c.encodeCacheBytes : ℚ) : WithTop ℚ) ≤ o.byteLimit
  hits : ∀ hit ∈ c.hits, o2u8 hit.1 none = .ok hit.2
  fresh : ∀ e ∈ c.encodeCache, ∃ t, e.1 = some t ∧ e.2 = encode t

theorem Kept.keeps (h : Kept o c) : Keeps o c := ⟨h.sound.bytes, h.entries, h.bytes, h.hits⟩

theorem Options.byteLimit_nonneg (o : Options) : ((0 : ℚ) : WithTop ℚ) ≤ o.byteLimit := by
  unfold Options.byteLimit
  split
  · exact WithTop.coe_le_coe.mpr (le_max_left _ _)
  · exact le_top

theorem kept_init : Kept o {} := by
  refine ⟨⟨List.nodup_nil, rfl⟩, ?_, ?_, ?_, ?_⟩
  · exact le_trans (WithTop.coe_le_coe.mpr (by norm_num)) o.sixteen_le
  · exact o.byteLimit_nonneg
  · intro hit hmem
    cases hmem
  · intro e hmem
    cases hmem

/-- The text of a message without a shared buffer is encoded afresh as the cache has it. -/
theorem o2u8_text {m : Message} {t : String} (hplain : m.shared = none) (hjson : m.json = .text t) :
    o2u8 m none = .ok (encode t) := by
  unfold o2u8
  rw [hplain, hjson]

theorem Kept.hit (h : Kept o c) (hfits : Fits o e) {s : Option String} {bytes : Bytes}
    (hs : ∀ t, s = some t → e.message.json = .text t) (hget : EntryMap.get s c.encodeCache = some bytes)
    (hsound : Sound { c with
      encodeCache := EntryMap.set s bytes (EntryMap.delete s c.encodeCache)
      hits := c.hits ++ [(e.message, bytes)] }) :
    Kept o { c with
      encodeCache := EntryMap.set s bytes (EntryMap.delete s c.encodeCache)
      hits := c.hits ++ [(e.message, bytes)] } := by
  have hmem := EntryMap.mem_of_get hget
  obtain ⟨t, ht, hbytes⟩ := h.fresh _ hmem
  dsimp only at ht hbytes
  refine ⟨hsound, ?_, h.bytes, ?_, ?_⟩
  · -- the entry that is put last was taken out before
    have hshorter : (EntryMap.delete s c.encodeCache).length < c.encodeCache.length := by
      unfold EntryMap.delete
      refine lt_of_le_of_ne (List.length_filter_le _ _) fun heq => ?_
      have hall := List.length_filter_eq_length_iff.mp heq _ hmem
      simp at hall
    refine le_trans (WithTop.coe_le_coe.mpr ?_) h.entries
    dsimp only
    rw [EntryMap.set_delete, List.length_append]
    exact_mod_cast hshorter
  · intro hit hhit
    rcases List.mem_append.mp hhit with hhit | hhit
    · exact h.hits hit hhit
    · rw [List.mem_singleton] at hhit
      rw [hhit, hbytes]
      exact o2u8_text hfits.plain (hs t ht)
  · intro entry hentry
    dsimp only at hentry
    rw [EntryMap.set_delete, List.mem_append] at hentry
    rcases hentry with hentry | hentry
    · exact h.fresh entry (List.mem_of_mem_filter hentry)
    · rw [List.mem_singleton] at hentry
      exact ⟨t, by rw [hentry]; exact ht, by rw [hentry]; exact hbytes⟩

theorem Kept.miss (h : Kept o c) (hwhole : o.Whole) (hfits : Fits o e) (huse : e.useCache = true)
    {t : String} (hjson : e.message.json = .text t) (hshort : utf16Length t ≤ largeKeyLength)
    (hsound : Sound { evict o (encode t).length c.encodeCache.length c with
      encodeCache := (evict o (encode t).length c.encodeCache.length c).encodeCache ++ [(some t, encode t)]
      encodeCacheBytes :=
        (evict o (encode t).length c.encodeCache.length c).encodeCacheBytes + (encode t).length }) :
    Kept o { evict o (encode t).length c.encodeCache.length c with
      encodeCache := (evict o (encode t).length c.encodeCache.length c).encodeCache ++ [(some t, encode t)]
      encodeCacheBytes :=
        (evict o (encode t).length c.encodeCache.length c).encodeCacheBytes + (encode t).length } := by
  have hevict := h.sound.evict (o := o) (w := (encode t).length) (n := c.encodeCache.length)
  have hroom := evict_fits (o := o) (w := (encode t).length) h.sound le_rfl
  have hsuffix := evict_suffix (o := o) (w := (encode t).length) (n := c.encodeCache.length) h.sound
  refine ⟨hsound, ?_, ?_, ?_, ?_⟩
  · dsimp only
    rw [List.length_append, List.length_singleton]
    rcases hroom with hroom | hempty
    · rw [needEviction, Bool.or_eq_false_iff, decide_eq_false_iff_not, not_le] at hroom
      exact hwhole.succ_le hroom.1
    · rw [hempty]
      refine le_trans (WithTop.coe_le_coe.mpr ?_) o.sixteen_le
      norm_num
  · dsimp only
    rcases hroom with hroom | hempty
    · rw [needEviction, Bool.or_eq_false_iff, decide_eq_false_iff_not, decide_eq_false_iff_not, not_lt] at hroom
      exact hroom.2
    · -- nothing is left to drop, so the entry has to fit by itself
      rw [hevict.bytes, hempty]
      change (((0 + (encode t).length : ℕ) : ℚ) : WithTop ℚ) ≤ _
      rw [Nat.zero_add]
      exact hfits.bytes t huse hjson hshort
  · intro hit hhit
    dsimp only at hhit
    rw [hits_evict] at hhit
    exact h.hits hit hhit
  · intro entry hentry
    rcases List.mem_append.mp hentry with hentry | hentry
    · exact h.fresh entry (hsuffix.subset hentry)
    · rw [List.mem_singleton] at hentry
      exact ⟨t, by rw [hentry], by rw [hentry]⟩

theorem step_kept (h : Kept o c) (hwhole : o.Whole) (hfits : Fits o e) : Kept o (step o c e) := by
  have hsound := step_sound (o := o) (e := e) h.sound
  have hdoes : Does o e c (step o c e) := step_does h.sound
  generalize step o c e = c' at hsound hdoes
  cases hdoes with
  | nothing => exact h
  | hit s bytes hs hget => exact h.hit hfits hs hget hsound
  | miss s u8 huse hs hnone hget hu8 =>
    unfold o2u8 at hu8
    rw [hfits.plain] at hu8
    cases s with
    | none =>
      rw [hnone rfl] at hu8
      cases hu8
    | some t =>
      injection hu8 with hu8
      subst hu8
      exact h.miss hwhole hfits huse (hs t rfl).1 (hs t rfl).2 hsound

/-- Where the limit of the entries is whole, no message is a shared buffer, and each entry
is within the byte limit by itself, the total is the bytes of the entries, both limits
hold, and a hit is what the message is encoded to. -/
theorem cache_keeps_its_limits (o : Options) (hwhole : o.Whole) (es : List Call)
    (hes : Meets (step o) (fun _ e => Fits o e) {} es) : Always (step o) (Keeps o) {} es := by
  have hstep : ∀ c e, Kept o c → Fits o e → Kept o (step o c e) := fun _ _ h hfits => step_kept h hwhole hfits
  exact (always_of_meets hstep kept_init hes).mono fun _ h => h.keeps

/-- One message, sent twice. -/
theorem cache_keeps_its_limits_twice :
    Always (step { encodeCacheByteLimit := some (.finite 2) }) (Keeps { encodeCacheByteLimit := some (.finite 2) })
      {} [⟨⟨.text "{}", none⟩, true⟩, ⟨⟨.text "{}", none⟩, true⟩] := by
  apply cache_keeps_its_limits
  · intro q hq
    cases hq
  · have hfits : Fits { encodeCacheByteLimit := some (.finite 2) } ⟨⟨.text "{}", none⟩, true⟩ := by
      refine ⟨rfl, fun t _ ht _ => ?_⟩
      cases ht
      decide
    exact ⟨hfits, hfits, trivial⟩

/-- A byte limit of 1 does not keep two bytes out, and the bytes of a shared buffer are
handed out for an empty object. -/
theorem cache_over_limit_and_stale :
    ¬ Always (step { encodeCacheByteLimit := some (.finite 1) }) (Keeps { encodeCacheByteLimit := some (.finite 1) })
        {} [⟨⟨.text "{}", none⟩, true⟩] ∧
      ¬ Always (step {}) (Keeps {}) {} [⟨⟨.text "{}", some [7]⟩, true⟩, ⟨⟨.text "{}", none⟩, true⟩] := by
  constructor
  · intro h
    exact absurd h.last (by decide)
  · intro h
    exact absurd h.last (by decide)

end PerformanceHelpers.PowerPool.EncodeCache
