import PerformanceHelpers.PowerCache.Core

/- What an LRU cache is for: a list of entries, the one last used behind the others.

   The calls of a `PowerCache` restated on that list, with none of the code's
   structure: no nodes, no links, no map and no running weight, and an expiry that
   is absent rather than 0. Only the cursor of the incremental sweep is kept, as the
   key it rests on, since the sweeps return how far they came. -/
namespace PerformanceHelpers.PowerCache

structure Entry (K V : Type) where
  key : K
  value : V
  weight : ℚ
  expiresAt : Option ℚ
  deriving DecidableEq

/-- An entry expires when the clock reaches its `expiresAt`. -/
def Entry.expired {K V : Type} (e : Entry K V) (now : ℚ) : Bool :=
  e.expiresAt.any fun t => decide (t ≤ now)

structure Recency (K V : Type) where
  config : Config K V
  entries : List (Entry K V)
  cursor : Option K

namespace Recency

variable {K V : Type} [DecidableEq K]

def find (m : Recency K V) (key : K) : Option (Entry K V) :=
  m.entries.find? fun e => decide (e.key = key)

def without (es : List (Entry K V)) (key : K) : List (Entry K V) :=
  es.filter fun e => decide (e.key ≠ key)

/-- The key behind `key`. -/
def after (es : List (Entry K V)) (key : K) : Option K :=
  (es.dropWhile fun e => decide (e.key ≠ key)).tail.head?.map Entry.key

def remove (m : Recency K V) (key : K) : Recency K V :=
  { m with
    entries := without m.entries key
    cursor := if m.cursor = some key then after m.entries key else m.cursor }

def put (m : Recency K V) (e : Entry K V) : Recency K V :=
  { m with entries := without m.entries e.key ++ [e] }

def totalWeight (m : Recency K V) : ℚ := (m.entries.map Entry.weight).sum

def overLimit (m : Recency K V) : Bool :=
  m.config.maxEntries.any (fun n => decide (n < (m.entries.length : ℚ))) ||
    m.config.maxWeight.any fun w => decide (w < m.totalWeight)

def dropOldest (m : Recency K V) : Recency K V :=
  match m.entries with
  | [] => m
  | e :: _ => m.remove e.key

/-- Drop the oldest entries until the limits hold, `n` at most. -/
def shrink : ℕ → Recency K V → Recency K V
  | 0, m => m
  | n + 1, m => if m.overLimit then shrink n m.dropOldest else m

def evictIfNeeded (m : Recency K V) : Recency K V := shrink m.entries.length m

def read (m : Recency K V) (key : K) (now : ℚ) : Recency K V × Option (Entry K V) :=
  match m.find key with
  | none => (m, none)
  | some e => if e.expired now then (m.remove key, none) else (m, some e)

def readUnless (m : Recency K V) (key : K) (ignoreExpiry : Bool) (now : ℚ) :
    Recency K V × Option (Entry K V) :=
  if ignoreExpiry then (m, m.find key) else m.read key now

def get (m : Recency K V) (key : K) (now : ℚ) : Recency K V × Option V :=
  match m.read key now with
  | (m, none) => (m, none)
  | (m, some e) => (m.put e, some e.value)

def getManyOne (ignoreExpiry : Bool) (acc : Recency K V × List (K × Option V)) (q : K × ℚ) :
    Recency K V × List (K × Option V) :=
  match acc.1.readUnless q.1 ignoreExpiry q.2 with
  | (m, none) => (m, acc.2)
  | (m, some e) => (m.put e, mapSet acc.2 q.1 (some e.value))

def getMany (m : Recency K V) (keys : List (K × ℚ)) (ignoreExpiry : Bool) :
    Recency K V × List (K × Option V) :=
  keys.foldl (getManyOne ignoreExpiry) (m, [])

/-- When a ttl given at `now` runs out. -/
def expiry (ttl : Ttl) (now : ℚ) : Except String (Option ℚ) :=
  match ttl with
  | .never => .ok none
  | .ms t => .ok (some (now + t))
  | .invalid => .error ttlError

def oversized (m : Recency K V) (w : ℚ) : Bool :=
  m.config.rejectOversized && m.config.maxWeight.any fun limit => decide (limit < w)

/-- One entry of a `setMany`. -/
def setManyOne (expiresAt : Option ℚ) (weight : Option Weight) (m : Recency K V) (p : K × V) :
    Recency K V :=
  let w := computeWeight m.config.weightFn p.2 weight
  if m.oversized w then m else m.put ⟨p.1, p.2, w, expiresAt⟩

def setMany (m : Recency K V) (entries : List (K × V)) (ttl : Option Ttl)
    (weight : Option Weight) (now : ℚ) : Except String (Recency K V) :=
  match expiry (ttl.getD .never) now with
  | .error e => .error e
  | .ok expiresAt => .ok (entries.foldl (setManyOne expiresAt weight) m).evictIfNeeded

def set (m : Recency K V) (key : K) (value : V) (ttl : Option Ttl) (weight : Option Weight)
    (now : ℚ) : Except String (Recency K V × Bool) :=
  match expiry (ttl.getD m.config.defaultTTL) now with
  | .error e => .error e
  | .ok expiresAt =>
    if m.oversized (computeWeight m.config.weightFn value weight) then .ok (m, false)
    else .ok ((m.setManyOne expiresAt weight (key, value)).evictIfNeeded, true)

def touch (m : Recency K V) (key : K) (ttl : Option Ttl) (now : ℚ) :
    Except String (Recency K V × Bool) :=
  match m.read key now with
  | (m, none) => .ok (m, false)
  | (m, some e) =>
    match ttl with
    | none => .ok (m.put e, true)
    | some ttl =>
      match expiry ttl now with
      | .error err => .error err
      | .ok expiresAt => .ok (m.put { e with expiresAt }, true)

def delete (m : Recency K V) (key : K) : Recency K V × Bool :=
  match m.find key with
  | none => (m, false)
  | some _ => (m.remove key, true)

def evict (m : Recency K V) (count : ℤ) : Except String (Recency K V × ℕ) :=
  if count < 0 then
    .error s!"PowerCache evict(count): count must be a non-negative integer number, got {count}"
  else .ok (dropOldest^[count.toNat] m, min count.toNat m.entries.length)

def invalidate (m : Recency K V) (predicate : Option K → Option V → Bool) : Recency K V × ℕ :=
  let doomed := m.entries.filter fun e => predicate (some e.key) (some e.value)
  (doomed.foldl (fun m e => m.remove e.key) m, doomed.length)

def getOrSetAsync (m : Recency K V) (key : K) (staleWhileRevalidate : Option Bool) (now : ℚ) :
    Recency K V :=
  match m.find key with
  | none => m
  | some e =>
    let servable := staleWhileRevalidate.getD m.config.allowStale &&
      m.config.staleTtl.all fun window => e.expiresAt.all fun t => decide (now ≤ t + window)
    if e.expired now && !servable then m.remove key else m.put e

def resize (m : Recency K V) (maxEntries maxWeight : Option ℚ) : Recency K V :=
  { evictIfNeeded { m with config := { m.config with
      maxEntries := maxEntries.elim m.config.maxEntries fun n => some (max 0 n)
      maxWeight := maxWeight.elim m.config.maxWeight fun w => some (max 0 w) } } with
    cursor := none }

def atCursor (m : Recency K V) : List (Entry K V) × List (Entry K V) :=
  match m.cursor with
  | none => ([], m.entries)
  | some key => m.entries.span fun e => decide (e.key ≠ key)

/-- How many of `n` entries a sweep looks at. -/
def scanned (maxScan : Option ℚ) (n : ℕ) : ℕ := maxScan.elim n fun b => min n ⌈b⌉₊

/-- A sweep looks at entries from the cursor on, removes those that have expired, and
leaves the cursor on the next, or on the oldest. -/
def cleanupExpiredUpTo (m : Recency K V) (maxScan : Option ℚ) (now : ℚ) : Recency K V × ℕ :=
  let (before, rest) := m.atCursor
  let n := scanned maxScan rest.length
  let entries := before ++ ((rest.take n).filter (fun e => !e.expired now) ++ rest.drop n)
  ({ m with
      entries
      cursor := ((rest.drop n).head? <|> entries.head?).map Entry.key }, n)

def walk (m : Recency K V) (order : Order) : List (Option K × Option V) :=
  let pairs := m.entries.map fun e => (some e.key, some e.value)
  match order with
  | .lru => pairs
  | .mru => pairs.reverse

def settleCall {α : Type} (m : Recency K V) (r : Except String (Recency K V × α))
    (out : α → Outcome K V) : Recency K V × Outcome K V :=
  match r with
  | .error e => (m, .threw e)
  | .ok (m, a) => (m, out a)

def step (m : Recency K V) : Event K V → Recency K V × Outcome K V
  | .set k v ttl w now => settleCall m (m.set k v ttl w now) .flag
  | .get k now => ((m.get k now).1, .value (m.get k now).2)
  | .peek k now => ((m.read k now).1, .value ((m.read k now).2.map Entry.value))
  | .has k ign now => ((m.readUnless k ign now).1, .flag (m.readUnless k ign now).2.isSome)
  | .getMany ks ign => ((m.getMany ks ign).1, .values (m.getMany ks ign).2)
  | .touch k ttl now => settleCall m (m.touch k ttl now) .flag
  | .delete k => ((m.delete k).1, .flag (m.delete k).2)
  | .evict n => settleCall m (m.evict n) .count
  | .resize n w => (m.resize n w, .done)
  | .cleanupExpiredUpTo n now =>
    ((m.cleanupExpiredUpTo n now).1, .count (m.cleanupExpiredUpTo n now).2)
  | .entries order => (m, .entries (m.walk order))
  | .setMany es ttl w now =>
    settleCall m ((m.setMany es ttl w now).map fun m => (m, ())) fun _ => .done
  | .invalidate p => ((m.invalidate p).1, .count (m.invalidate p).2)
  | .getOrSetAsync k swr now => (m.getOrSetAsync k swr now, .done)
  | .finishFetch _ _ => (m, .done)

/-! ## Around one entry -/

section
variable {m : Recency K V} {les res : List (Entry K V)} {e : Entry K V}

theorem without_of_absent {es : List (Entry K V)} {key : K} (h : ∀ e' ∈ es, e'.key ≠ key) :
    without es key = es :=
  List.filter_eq_self.mpr fun e' he' => decide_eq_true (h e' he')

theorem without_split (h : ∀ e' ∈ les ++ res, e'.key ≠ e.key) :
    without (les ++ e :: res) e.key = les ++ res := by
  have hle := without_of_absent fun e' he' => h e' (List.mem_append_left res he')
  have hre := without_of_absent fun e' he' => h e' (List.mem_append_right les he')
  rw [without, List.filter_append, List.filter_cons_of_neg (by simp)]
  exact congrArg₂ (· ++ ·) hle hre

theorem find_split (hm : m.entries = les ++ e :: res) (h : ∀ e' ∈ les ++ res, e'.key ≠ e.key) :
    m.find e.key = some e := by
  have hle : les.find? (fun e' => decide (e'.key = e.key)) = none :=
    List.find?_eq_none.mpr fun e' he' => by simpa using h e' (List.mem_append_left res he')
  simp [find, hm, hle]

theorem dropWhile_split (h : ∀ e' ∈ les ++ res, e'.key ≠ e.key) :
    (les ++ e :: res).dropWhile (fun e' => decide (e'.key ≠ e.key)) = e :: res := by
  rw [List.dropWhile_append_of_pos fun e' he' => decide_eq_true (h e' (List.mem_append_left res he'))]
  simp

theorem after_split (h : ∀ e' ∈ les ++ res, e'.key ≠ e.key) :
    after (les ++ e :: res) e.key = res.head?.map Entry.key := by
  rw [after, dropWhile_split h, List.tail_cons]

theorem remove_split (hm : m.entries = les ++ e :: res)
    (h : ∀ e' ∈ les ++ res, e'.key ≠ e.key) : m.remove e.key = { m with
      entries := les ++ res
      cursor := if m.cursor = some e.key then res.head?.map Entry.key else m.cursor } := by
  simp only [remove, hm, without_split h, after_split h]

theorem setManyOne_config {o : Option ℚ} {weight : Option Weight} {p : K × V} :
    (m.setManyOne o weight p).config = m.config := by
  simp only [setManyOne, put]
  split <;> rfl

end

end Recency

end PerformanceHelpers.PowerCache
