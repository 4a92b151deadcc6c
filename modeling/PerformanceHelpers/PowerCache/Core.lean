import PerformanceHelpers.KeyMap
import PerformanceHelpers.LinkedList
import PerformanceHelpers.Options
import PerformanceHelpers.Run

/- `PowerCache` (`src/helpers/cache/core.js`).

   Nodes are references into a heap with one function per field. Freed nodes go
   to `pool` and are used again, so a reference that outlives its node would be
   visible. `Infinity` and an absent limit are `none`; a clock reading is an
   argument of the call that takes it; weights and times are exact. The callbacks
   do not touch the cache, and are recorded in `log`. The sketch of the admission
   filter is what it estimates, given the keys counted so far. -/
namespace PerformanceHelpers.PowerCache

inductive Policy where
  | lru
  | slru
  | sieve
  | s3fifo
  deriving DecidableEq, Repr

/-- What `node.queue` may be. -/
inductive Queue where
  | main
  | small
  | ghost
  deriving DecidableEq, Repr

/-- A `ttl` argument: `null` or `Infinity`, a finite number, or anything else. -/
inductive Ttl where
  | never
  | ms (t : ℚ)
  | invalid
  deriving DecidableEq

/-- What `weightFn` does with a value. -/
inductive Weigh where
  | finite (w : ℚ)
  | nonFinite
  | threw
  deriving DecidableEq

/-- `Number` of what `missCost` returns: it may be infinite, and NaN, as when the hook
throws, is `none`. -/
abbrev Cost := Option (WithBot (WithTop ℚ))

/-- The `windowSize` option: `null`, or a number that may be infinite. -/
inductive WindowSize where
  | auto
  | size (n : Option ℚ)
  deriving DecidableEq

/-- A call of `onEvict` or `onExpire`. -/
inductive Callback (K V : Type) where
  | onEvict (key : Option K) (value : Option V) (reason : String)
  | onExpire (key : Option K) (value : Option V)
  deriving DecidableEq

/-- `_inflightPromises` and `_inflightControllers` under one key. -/
structure Fetch (K : Type) where
  key : K
  aborted : Bool
  deriving DecidableEq

structure Counters where
  hits : ℕ := 0
  misses : ℕ := 0
  evictions : ℕ := 0
  expirations : ℕ := 0
  rejected : ℕ := 0
  rejectedAdmission : ℕ := 0
  weightErrors : ℕ := 0
  staleServes : ℕ := 0
  refreshesSkipped : ℕ := 0
  refreshesAborted : ℕ := 0
  deriving DecidableEq

/-- What the constructor settles. `resize` alone changes it later, and only the limits. -/
structure Config (K V : Type) where
  policy : Policy
  maxEntries : Option ℚ
  maxWeight : Option ℚ
  maxPoolSize : Option ℤ
  maxInflightRefreshes : ℚ
  weightFn : V → Weigh
  defaultTTL : Ttl
  rejectOversized : Bool
  allowStale : Bool
  staleTtl : Option ℚ
  smallMaxSize : ℤ
  ghostMaxSize : ℤ
  /-- The `n`-th call of the hook, which may answer differently each time. -/
  missCost : Option (ℕ → Option K → Option V → Cost)
  missCostScan : Option ℕ
  /-- `_sketch`: what it estimates for a key once the keys of a list were counted. -/
  sketch : Option (List K → Option K → ℕ)
  windowSize : Option ℤ

structure Fields (K V : Type) where
  key : ℕ → Option K
  value : ℕ → Option V
  weight : ℕ → ℚ
  expiresAt : ℕ → ℚ

structure Heap (K : Type) where
  /-- `node.queue`. -/
  queue : ℕ → Queue
  /-- `node.visited` and `node.inWindow`. -/
  visited : ℕ → Bool
  inWindow : ℕ → Bool
  /-- `node.prev` and `node.next`. -/
  links : Links ℕ
  nextNode : ℕ
  /-- `_pool`, read from its end. -/
  pool : List ℕ
  /-- `_head` and `_tail`. -/
  main : Ends ℕ
  small : Ends ℕ
  ghost : Ends ℕ
  map : KeyMap K ℕ
  smallMap : KeyMap K ℕ
  ghostMap : KeyMap K ℕ
  smallSize : ℤ
  ghostSize : ℤ
  evictionCandidate : Option ℕ
  /-- The last node of the probation segment. -/
  probationEnd : Option ℕ
  sieveHand : Option ℕ
  windowStartMemo : Option ℕ
  windowTail : Option ℕ
  cleanupCursor : Option ℕ
  cleanupCursorValid : Bool

structure Cache (K V : Type) extends Config K V, Fields K V, Heap K where
  currentWeight : ℚ
  /-- The keys the sketch has counted. -/
  counted : List K
  missCostCalls : ℕ
  inflight : List (Fetch K)
  counters : Counters
  log : List (Callback K V)

/-- The constructor's options. -/
structure Options (K V : Type) where
  policy : Policy := .lru
  maxEntries : Option ℤ := none
  maxWeight : Option ℚ := none
  weightFn : V → Weigh := fun _ => .finite 1
  defaultTTL : Ttl := .ms 60000
  maxPoolSize : Option ℤ := some 1000
  initialPoolSize : ℕ := 0
  maxInflightRefreshes : Option ℤ := none
  rejectOversized : Bool := false
  allowStale : Bool := false
  /-- Absent, or given as a window that may be infinite. -/
  staleTtl : Option (Option ℚ) := none
  missCost : Option (ℕ → Option K → Option V → Cost) := none
  /-- A number that may be infinite. -/
  missCostScan : Option ℚ := some 8
  /-- `'tinylfu'`, with what its sketch estimates, or `'none'`. -/
  admission : Option (List K → Option K → ℕ) := none
  windowSize : WindowSize := .size (some 0)

section
variable {K V : Type}

/-- `_windowSize` of a cache with a sketch: one percent of the entries when it is left to
the cache, and a quarter of them at most. -/
def windowSizeOf (windowSize : WindowSize) (maxEntries : Option ℤ) : Option ℤ :=
  let size : Option ℤ := match windowSize with
    | .auto => maxEntries.map fun (m : ℤ) => min (max 4 ⌈(m : ℚ) / 100⌉) (m / 4)
    | .size n => n.map fun n => max 0 ⌊n⌋
  match maxEntries with
  | none => size
  | some m => if size.all (fun n => decide (m ≤ n)) ∧ 4 ≤ m then some (m / 4) else size

/-- The fields the constructor leaves, once the limits are checked. -/
def initial (o : Options K V) (maxEntries : Option ℤ) (maxInflightRefreshes : ℤ)
    (maxWeight : Option ℚ) (maxPoolSize : Option ℤ) : Cache K V :=
  -- `Math.max(1, Math.floor(base * 0.1))`, of 1000 when there is no limit
  let base : ℤ := maxEntries.getD 1000
  let pooled := maxPoolSize.elim o.initialPoolSize fun m => min o.initialPoolSize m.toNat
  { policy := o.policy
    maxEntries := maxEntries.map (↑), maxWeight, maxPoolSize
    maxInflightRefreshes := maxInflightRefreshes
    weightFn := o.weightFn, defaultTTL := o.defaultTTL
    rejectOversized := o.rejectOversized, allowStale := o.allowStale
    staleTtl := o.staleTtl.getD none
    smallMaxSize := if o.policy = .s3fifo then max 1 (base / 10) else 0
    ghostMaxSize := if o.policy = .s3fifo then max 1 (base / 5) else 0
    missCost := o.missCost
    missCostScan := o.missCostScan.map fun n => max 1 ⌊n⌋₊
    sketch := if o.policy = .lru then o.admission else none
    windowSize := if o.policy = .lru ∧ o.admission.isSome then windowSizeOf o.windowSize maxEntries
      else some 0
    key := fun _ => none, value := fun _ => none, weight := fun _ => 0
    expiresAt := fun _ => 0, queue := fun _ => .main
    visited := fun _ => false, inWindow := fun _ => false
    links := ⟨fun _ => none, fun _ => none⟩
    nextNode := pooled, pool := List.range pooled
    main := ⟨none, none⟩, small := ⟨none, none⟩, ghost := ⟨none, none⟩
    map := .empty, smallMap := .empty, ghostMap := .empty
    smallSize := 0, ghostSize := 0, currentWeight := 0, counted := [], missCostCalls := 0
    evictionCandidate := none, probationEnd := none, sieveHand := none
    windowStartMemo := none, windowTail := none
    cleanupCursor := none, cleanupCursorValid := false
    inflight := [], counters := {}, log := [] }

/-- `maxInflightRefreshes`: without one, as many as entries, or 1024. -/
def inflightLimit (o : Options K V) (maxEntries : Option ℤ) : Except String ℤ :=
  match o.maxInflightRefreshes with
  | none => .ok (maxEntries.getD 1024)
  | some n => assertLimitRequired (some n) "maxInflightRefreshes" "PowerCache" 0 0

/-- The constructor. -/
def new (o : Options K V) : Except String (Cache K V) := do
  let maxEntries ← optionalLimit o.maxEntries "maxEntries" "PowerCache"
  let maxInflightRefreshes ← inflightLimit o maxEntries
  let maxWeight ← optionalLimit o.maxWeight "maxWeight" "PowerCache"
  let maxPoolSize ← optionalLimit o.maxPoolSize "maxPoolSize" "PowerCache"
  if (o.staleTtl.getD none).any fun t => decide (t < 0) then
    throw "PowerCache: `staleTtl` must be a non-negative finite number or Infinity"
  else if o.allowStale && o.staleTtl.isNone then
    throw "PowerCache: `allowStale` requires an explicit `staleTtl`."
  else
    pure (initial o maxEntries maxInflightRefreshes maxWeight maxPoolSize)

/-! ## Nodes -/

/-- `_pool.pop()`, or a new node. -/
def takeNode (c : Cache K V) : Cache K V × ℕ :=
  match c.pool with
  | i :: pool => ({ c with pool }, i)
  | [] => ({ c with nextNode := c.nextNode + 1 }, c.nextNode)

def allocNode (c : Cache K V) (key : K) (value : V) (weight expiresAt : ℚ) : Cache K V × ℕ :=
  let (c, i) := takeNode c
  ({ c with
      key := Function.update c.key i (some key)
      value := Function.update c.value i (some value)
      weight := Function.update c.weight i weight
      expiresAt := Function.update c.expiresAt i expiresAt
      queue := Function.update c.queue i .main
      visited := Function.update c.visited i false
      inWindow := Function.update c.inWindow i false
      links := clearLinks c.links i }, i)

def freeNode (c : Cache K V) (i : ℕ) : Cache K V :=
  { c with
    key := Function.update c.key i none
    value := Function.update c.value i none
    weight := Function.update c.weight i 0
    expiresAt := Function.update c.expiresAt i 0
    links := clearLinks c.links i
    pool := if c.maxPoolSize.all fun m => decide ((c.pool.length : ℤ) < m) then i :: c.pool
      else c.pool }

variable [DecidableEq K]

/-- `map.set(node.key, node)`. -/
def setKey (m : KeyMap K ℕ) (key : Option K) (i : ℕ) : KeyMap K ℕ :=
  key.elim m fun k => m.set k i

/-- `map.delete(node.key)`. -/
def deleteKey (m : KeyMap K ℕ) (key : Option K) : KeyMap K ℕ := key.elim m m.delete

/-! ## The queues -/

/-- `_s3fifoAppendSmall`. -/
def appendSmall (c : Cache K V) (i : ℕ) : Cache K V :=
  let r := attach c.links c.small i
  { c with
    links := r.1, small := r.2
    queue := Function.update c.queue i .small
    smallMap := setKey c.smallMap (c.key i) i
    smallSize := c.smallSize + 1 }

/-- `_s3fifoAppendMain`. -/
def appendMain (c : Cache K V) (i : ℕ) : Cache K V :=
  let r := attach c.links c.main i
  { c with
    links := r.1, main := r.2
    evictionCandidate := if c.main.tail = none then some i else c.evictionCandidate
    map := setKey c.map (c.key i) i }

/-- `_s3fifoAppendGhost`: only the key goes to Ghost. -/
def appendGhost (c : Cache K V) (i : ℕ) : Cache K V :=
  let r := attach c.links c.ghost i
  { c with
    value := Function.update c.value i none
    weight := Function.update c.weight i 0
    expiresAt := Function.update c.expiresAt i 0
    links := r.1, ghost := r.2
    queue := Function.update c.queue i .ghost
    ghostMap := setKey c.ghostMap (c.key i) i
    ghostSize := c.ghostSize + 1 }

/-- `_s3fifoRemoveFromSmall`. -/
def removeFromSmall (c : Cache K V) (i : ℕ) : Cache K V :=
  let r := detach c.links c.small i
  { c with
    links := r.1, small := r.2
    smallMap := deleteKey c.smallMap (c.key i)
    smallSize := c.smallSize - 1 }

/-- `_s3fifoRemoveFromGhost`. -/
def removeFromGhost (c : Cache K V) (i : ℕ) : Cache K V :=
  let r := detach c.links c.ghost i
  { c with
    links := r.1, ghost := r.2
    ghostMap := deleteKey c.ghostMap (c.key i)
    ghostSize := c.ghostSize - 1 }

/-- `_append` behind the tail of the one list of the other policies. -/
def appendList (c : Cache K V) (i : ℕ) : Cache K V :=
  let r := attach c.links c.main i
  { c with
    links := r.1, main := r.2
    evictionCandidate := if c.main.tail = none then some i else c.evictionCandidate
    probationEnd := if c.main.tail = none ∧ c.policy = .slru then some i else c.probationEnd
    sieveHand := if c.main.tail = none ∧ c.policy = .sieve then some i else c.sieveHand }

/-- `_insertIntoProbation`: behind the segment's last node, or in front of the list when
there is none. -/
def insertIntoProbation (c : Cache K V) (i : ℕ) : Cache K V :=
  let c := match c.probationEnd with
    | none => { c with
        links := insertBetween c.links none c.main.head i
        main := { c.main with head := some i }
        evictionCandidate := some i }
    | some b =>
      if c.main.tail = some b then { c with
        links := insertBetween c.links (some b) none i
        main := { c.main with tail := some i } }
      else match c.links.next b with
        | none => c
        | some next => { c with links := insertBetween c.links (some b) (some next) i }
  { c with probationEnd := some i }

def append (c : Cache K V) (i : ℕ) : Cache K V :=
  match c.policy with
  | .s3fifo => appendSmall c i
  | .slru => if c.main.tail = none then appendList c i else insertIntoProbation c i
  | .lru | .sieve => appendList c i

/-- `_remove`: it detaches the node from `_head` and `_tail` whatever queue it is
in, and then from its own. -/
def remove (c : Cache K V) (i : ℕ) : Cache K V :=
  let r := detach c.links c.main i
  let c' := { c with
    links := r.1, main := r.2
    evictionCandidate := if c.links.prev i = none then r.2.head else c.evictionCandidate
    probationEnd := if c.probationEnd = some i then c.links.prev i else c.probationEnd
    sieveHand := if c.policy = .sieve ∧ c.sieveHand = some i then c.links.next i <|> r.2.head
      else c.sieveHand }
  let c' := match c.policy, c.queue i with
    | .s3fifo, .small => removeFromSmall c' i
    | .s3fifo, .ghost => removeFromGhost c' i
    | _, _ => c'
  { c' with
    links := clearLinks c'.links i
    windowStartMemo := if c.inWindow i then none else c.windowStartMemo
    windowTail := if c.inWindow i then none else c.windowTail }

def cursorPast (c : Cache K V) (i : ℕ) : Option ℕ :=
  if c.cleanupCursor = some i then c.links.next i else c.cleanupCursor

/-- `_unlinkNode`, up to its `_remove`. -/
def dropRefs (c : Cache K V) (i : ℕ) (advanceEvictionCandidate : Bool) : Cache K V :=
  { c with
    map := deleteKey c.map (c.key i)
    currentWeight := c.currentWeight - c.weight i
    cleanupCursor := cursorPast c i
    cleanupCursorValid := (cursorPast c i).isSome
    evictionCandidate :=
      if advanceEvictionCandidate then c.links.next i else c.evictionCandidate }

def unlinkNode (c : Cache K V) (i : ℕ) (advanceEvictionCandidate : Bool) : Cache K V :=
  remove (dropRefs c i advanceEvictionCandidate) i

/-! ## In-flight fetches -/

/-- `_inflightPromises.has(key)`. -/
def hasInflight (c : Cache K V) (key : Option K) : Bool := c.inflight.any fun f => key == some f.key

def abortInflight (c : Cache K V) (key : Option K) : Cache K V :=
  if c.inflight.any fun f => key == some f.key && !f.aborted then
    { c with
      inflight := c.inflight.map fun f => if key == some f.key then { f with aborted := true } else f
      counters := { c.counters with refreshesAborted := c.counters.refreshesAborted + 1 } }
  else c

def dropInflight (c : Cache K V) (key : K) : Cache K V :=
  { c with inflight := c.inflight.filter fun f => f.key != key }

def addInflight (c : Cache K V) (key : K) : Cache K V :=
  { c with inflight := c.inflight ++ [⟨key, false⟩] }

/-- `_refreshStaleEntry`, up to its factory. -/
def refreshStaleEntry (c : Cache K V) (key : K) : Cache K V :=
  if hasInflight c (some key) then c
  else if c.maxInflightRefreshes ≤ c.inflight.length then
    { c with counters := { c.counters with refreshesSkipped := c.counters.refreshesSkipped + 1 } }
  else addInflight c key

/-! ## Eviction -/

def dropNode (c : Cache K V) (i : ℕ) (reason : String) : Cache K V :=
  freeNode { c with
    counters := { c.counters with evictions := c.counters.evictions + 1 }
    log := c.log ++ [.onEvict (c.key i) (c.value i) reason] } i

def evictNode (c : Cache K V) (i : ℕ) : Cache K V :=
  dropNode (unlinkNode (abortInflight c (c.key i)) i true) i "evicted"

/-- `size > maxEntries || currentWeight > maxWeight`. -/
def overLimit (c : Cache K V) (size : ℚ) : Bool :=
  c.maxEntries.any (fun m => decide (m < size)) ||
    c.maxWeight.any fun m => decide (m < c.currentWeight)

/-- `this._evictionCandidate || this._head`. -/
def victim (c : Cache K V) : Option ℕ := c.evictionCandidate <|> c.main.head

def settleCandidate (c : Cache K V) : Cache K V :=
  if c.evictionCandidate = none then { c with evictionCandidate := c.main.head } else c

/-- One node of the scan of `_cheapestEvictionCandidate`: the cheapest so far with its
cost, and the calls of the hook. -/
def scanCost (c : Cache K V) (hook : ℕ → Option K → Option V → Cost)
    (acc : ℕ × WithBot (WithTop ℚ) × ℕ) (i : ℕ) : ℕ × WithBot (WithTop ℚ) × ℕ :=
  let (best, bestCost, calls) := acc
  match hook calls (c.key i) (c.value i) with
  | none => (best, bestCost, calls + 1)
  | some cost => if cost < bestCost then (i, cost, calls + 1) else (best, bestCost, calls + 1)

/-- The nodes it scans, from `start` on. -/
def scanned (c : Cache K V) (start : ℕ) : List ℕ :=
  walk c.links.next (c.missCostScan.getD c.nextNode) (some start)

def cheapestEvictionCandidate (c : Cache K V) (hook : ℕ → Option K → Option V → Cost) :
    Cache K V × Option ℕ :=
  match victim c with
  | none => (c, none)
  | some start =>
    let r := (scanned c start).foldl (scanCost c hook) (start, ((⊤ : WithTop ℚ) : WithBot _), c.missCostCalls)
    ({ c with missCostCalls := r.2.2 }, some r.1)

/-- The node `_evictIfNeeded` takes: the cheapest if costs are known, or the candidate. -/
def nextVictim (c : Cache K V) : Cache K V × Option ℕ :=
  match c.missCost with
  | none => (c, victim c)
  | some hook => cheapestEvictionCandidate c hook

/-- The loop of `_evictIfNeeded`. A turn takes a node out of the list, so there are
at most as many as nodes. -/
def evictLoop : ℕ → Cache K V → Cache K V
  | 0, c => c
  | turns + 1, c =>
    if overLimit c c.map.size then
      match nextVictim c with
      | (c, none) => c
      | (c, some i) => evictLoop turns (evictNode c i)
    else c

/-- One turn of the loop of `_sieveEvict`: the hand moves on, and the node it was on is
spared if it was visited. -/
def sieveOne (c : Cache K V) (i : ℕ) : Cache K V :=
  let c := { c with sieveHand := c.links.next i <|> c.main.tail }
  if c.visited i then { c with visited := Function.update c.visited i false }
  else dropNode (unlinkNode (abortInflight c (c.key i)) i false) i "evicted"

/-- `_sieveEvict`. A turn takes a node out of the list or its mark off it, so there are at
most twice as many as nodes. -/
def sieveEvict : ℕ → Cache K V → Cache K V
  | 0, c => c
  | turns + 1, c =>
    if overLimit c c.map.size then
      match c.sieveHand <|> c.main.head with
      | none => c
      | some i => sieveEvict turns (sieveOne c i)
    else c

/-- One turn of the first loop of `_s3fifoEvict`: Small's oldest goes to Ghost, or out
when Ghost is full. -/
def demoteOne (c : Cache K V) (i : ℕ) : Cache K V :=
  let c' := removeFromSmall { c with currentWeight := c.currentWeight - c.weight i } i
  if c.ghostSize < c.ghostMaxSize then appendGhost c' i
  else dropNode (abortInflight c' (c.key i)) i "evicted"

def demoteSmall : ℕ → Cache K V → Cache K V
  | 0, c => c
  | turns + 1, c =>
    if c.smallMaxSize < c.smallSize then
      match c.small.head with
      | none => c
      | some i => demoteSmall turns (demoteOne c i)
    else c

/-- One turn of the second: Main's candidate goes to Ghost, or out. -/
def evictOne (c : Cache K V) (i : ℕ) : Cache K V :=
  if c.ghostSize < c.ghostMaxSize then appendGhost (unlinkNode c i true) i else evictNode c i

def evictMain : ℕ → Cache K V → Cache K V
  | 0, c => c
  | turns + 1, c =>
    if overLimit c (c.map.size + c.smallSize) then
      match victim c with
      | none => c
      | some i => evictMain turns (evictOne c i)
    else c

def s3fifoEvict (c : Cache K V) : Cache K V :=
  let c := demoteSmall (c.smallSize - c.smallMaxSize).toNat c
  settleCandidate (evictMain c.nextNode c)

def evictIfNeeded (c : Cache K V) : Cache K V :=
  match c.policy with
  | .s3fifo => s3fifoEvict c
  | .sieve => sieveEvict (2 * c.nextNode) c
  | .lru | .slru => settleCandidate (evictLoop c.nextNode c)

/-! ## The admission window -/

/-- `_windowOldest`: the first of the run of window nodes that ends at the tail, from the
memo while it holds. -/
def windowOldest (c : Cache K V) : Cache K V × Option ℕ :=
  match c.windowStartMemo.filter fun i =>
      (c.links.prev i).all (fun p => !c.inWindow p) && c.windowTail == c.main.tail with
  | some i => (c, some i)
  | none =>
    let oldest := ((walk c.links.prev c.nextNode c.main.tail).takeWhile c.inWindow).getLast?
    ({ c with windowStartMemo := oldest, windowTail := c.main.tail }, oldest)

/-- `_windowVictim`: the node in front of the window. -/
def windowVictim (c : Cache K V) : Cache K V × Option ℕ :=
  let (c, oldest) := windowOldest c
  (c, oldest.bind fun i => if c.main.head = some i then none else c.links.prev i)

/-- `_insertAtMainSpaceMrU`: in front of the window. -/
def insertAtMainSpaceMrU (c : Cache K V) (i : ℕ) : Cache K V :=
  match windowOldest c with
  | (c, none) => appendList c i
  | (c, some start) =>
    let prev := c.links.prev start
    { c with
      links := insertBetween c.links prev (some start) i
      main := if prev = none then { c.main with head := some i } else c.main
      evictionCandidate := if prev = none then some i else c.evictionCandidate }

def promoteFromWindow (c : Cache K V) (i : ℕ) : Cache K V :=
  let c := insertAtMainSpaceMrU (remove c i) i
  { c with inWindow := Function.update c.inWindow i false }

/-- `_evictNode`, which leaves a fetch of the key alone. -/
def evictByWindow (c : Cache K V) (i : ℕ) : Cache K V := dropNode (unlinkNode c i true) i "evicted"

/-- `_arbitrateWindow`: the oldest window node moves on if there is room, or if it was
asked for more often than the node it would displace. -/
def arbitrateWindow (c : Cache K V) (sketch : List K → Option K → ℕ) (previousSize : ℕ) :
    Cache K V :=
  if c.windowSize.all fun n => decide ((c.map.size : ℤ) ≤ n) then c
  else
    match windowOldest c with
    | (c, none) => c
    | (c, some challenger) =>
      match windowVictim c with
      | (c, none) => promoteFromWindow c challenger
      | (c, some v) =>
        let overWeight := c.maxWeight.any fun m => decide (m < c.currentWeight)
        if c.maxEntries.any (fun m => decide (m ≤ (previousSize : ℚ))) || overWeight then
          if sketch c.counted (c.key v) < sketch c.counted (c.key challenger) || overWeight then
            promoteFromWindow (evictByWindow c v) challenger
          else
            evictByWindow { c with
              counters := { c.counters with rejectedAdmission := c.counters.rejectedAdmission + 1 } }
              challenger
        else promoteFromWindow c challenger

/-- `_sketch?.increment(key)`. -/
def countKey (c : Cache K V) (key : K) : Cache K V :=
  if c.sketch.isSome then { c with counted := c.counted ++ [key] } else c

/-- The end of `_moveToTail` for a node taken out of Small or Ghost. -/
def promote (c : Cache K V) (i : ℕ) : Cache K V :=
  evictIfNeeded (appendMain { c with
    queue := Function.update c.queue i .main
    links := clearLinks c.links i } i)

/-- `_moveToTail` of the segmented list. The node is behind the probation segment from
then on, and leaves its end to the node before it. -/
def protect (c : Cache K V) (i : ℕ) : Cache K V :=
  let last := c.probationEnd = some i
  if c.main.tail = some i then
    { c with probationEnd := if last then c.links.prev i else c.probationEnd }
  else
    let c' := remove c i
    { c' with
      links := insertBetween c'.links c'.main.tail none i
      main := { c'.main with tail := some i }
      probationEnd := if last then c.links.prev i else c'.probationEnd }

def moveToTail (c : Cache K V) (i : ℕ) : Cache K V :=
  match c.policy with
  | .slru => protect c i
  | .sieve => { c with visited := Function.update c.visited i true }
  | .s3fifo =>
    match c.queue i with
    | .main => c
    | .small => promote (removeFromSmall c i) i
    | .ghost => promote (removeFromGhost c i) i
  | .lru =>
    if c.windowSize.all (fun n => decide (0 < n)) && !c.inWindow i then
      insertAtMainSpaceMrU (remove c i) i
    else if c.main.tail = some i then c else append (remove c i) i

/-! ## Reading -/

/-- `_removeExpiredNode`, of a node that has expired. -/
def removeExpiredNode (c : Cache K V) (i : ℕ) : Cache K V :=
  let c' := unlinkNode c i false
  freeNode { c' with
    counters := { c'.counters with expirations := c'.counters.expirations + 1 }
    log := c'.log ++ [.onExpire (c.key i) (c.value i)] } i

/-- `expiresAt && expiresAt <= now`. -/
def expiredAt (c : Cache K V) (i : ℕ) (now : ℚ) : Bool :=
  decide (c.expiresAt i ≠ 0) && decide (c.expiresAt i ≤ now)

def countMiss (c : Cache K V) (count : Bool) : Cache K V :=
  if count then { c with counters := { c.counters with misses := c.counters.misses + 1 } } else c

def countHit (c : Cache K V) : Cache K V :=
  { c with counters := { c.counters with hits := c.counters.hits + 1 } }

def lookup (c : Cache K V) (key : K) : Option ℕ :=
  match c.policy with
  | .lru | .slru | .sieve => c.map.get key
  | .s3fifo => c.map.get key <|> (c.smallMap.get key <|> c.ghostMap.get key)

/-- `_fetchValidNode`: the node under a key, unless it is a ghost or has expired. A
reading of 0 is taken for no reading. -/
def fetchValidNode (c : Cache K V) (key : K) (ignoreExpiry count : Bool) (now : ℚ) :
    Cache K V × Option ℕ :=
  match lookup c key with
  | none => (countMiss c count, none)
  | some i =>
    if c.policy = .s3fifo ∧ (c.map.get key).isNone ∧ c.queue i = .ghost then
      (countMiss c count, none)
    else if ignoreExpiry = false ∧ now ≠ 0 ∧ expiredAt c i now then
      (countMiss (removeExpiredNode c i) count, none)
    else (c, some i)

def get (c : Cache K V) (key : K) (now : ℚ) : Cache K V × Option V :=
  let (c, found) := fetchValidNode c key false true now
  match found with
  | none => (c, none)
  | some i =>
    let c := countKey (countHit (moveToTail c i)) key
    (c, c.value i)

def peek (c : Cache K V) (key : K) (now : ℚ) : Cache K V × Option V :=
  let (c, found) := fetchValidNode c key false false now
  (c, found.bind c.value)

def has (c : Cache K V) (key : K) (ignoreExpiry : Bool) (now : ℚ) : Cache K V × Bool :=
  let (c, found) := fetchValidNode c key ignoreExpiry false now
  (c, found.isSome)

/-- `res.set(key, value)` on a `Map` that keeps insertion order. -/
def mapSet (res : List (K × Option V)) (key : K) (value : Option V) : List (K × Option V) :=
  if res.any fun p => p.1 == key then res.map fun p => if p.1 = key then (key, value) else p
  else res ++ [(key, value)]

/-- One key of `getMany`, with the reading its lookup takes. -/
def getManyOne (ignoreExpiry : Bool) (acc : Cache K V × List (K × Option V)) (q : K × ℚ) :
    Cache K V × List (K × Option V) :=
  let (c, found) := fetchValidNode acc.1 q.1 ignoreExpiry true q.2
  match found with
  | none => (c, acc.2)
  | some i =>
    let c := countHit (moveToTail c i)
    (c, mapSet acc.2 q.1 (c.value i))

def getMany (c : Cache K V) (keys : List (K × ℚ)) (ignoreExpiry : Bool) :
    Cache K V × List (K × Option V) :=
  keys.foldl (getManyOne ignoreExpiry) (c, [])

/-! ## Writing -/

/-- `normalizeTtl` refuses the ttl. -/
def ttlError : String := "PowerCache: `ttl` must be a finite number, null or Infinity"

/-- `_expiresAt`: 0 is "no expiry". -/
def expiresAtOf (ttl : Ttl) (now : ℚ) : Except String ℚ :=
  match ttl with
  | .never => .ok 0
  | .ms t => .ok (now + t)
  | .invalid => .error ttlError

/-- A `weight` option, once given: finite or not. -/
abbrev Weight := Option ℚ

/-- The weight `_computeWeight` comes to. -/
def computeWeight (weightFn : V → Weigh) (value : V) (weight : Option Weight) : ℚ :=
  match weight with
  | some (some w) => max 0 w
  | some none => 0
  | none =>
    match weightFn value with
    | .finite w => max 0 w
    | .nonFinite | .threw => 0

theorem computeWeight_nonneg (weightFn : V → Weigh) (value : V) (weight : Option Weight) :
    0 ≤ computeWeight weightFn value weight := by
  unfold computeWeight
  split <;> first | exact le_max_left _ _ | exact le_rfl | skip
  split <;> first | exact le_max_left _ _ | exact le_rfl

/-- `_computeWeight` counts a `weightFn` that throws. -/
def countWeightError (c : Cache K V) (value : V) (weight : Option Weight) : Cache K V :=
  if weight.isNone && c.weightFn value == .threw then
    { c with counters := { c.counters with weightErrors := c.counters.weightErrors + 1 } }
  else c

/-- The condition of `_rejectIfOversized`. -/
def oversized (c : Cache K V) (w : ℚ) : Bool :=
  c.rejectOversized && c.maxWeight.any fun m => decide (m < w)

def reject (c : Cache K V) (key : K) (value : V) : Cache K V :=
  { c with
    counters := { c.counters with rejected := c.counters.rejected + 1 }
    log := c.log ++ [.onEvict (some key) (some value) "rejected-oversized"] }

def updateExisting (c : Cache K V) (i : ℕ) (value : V) (w expiresAt : ℚ) : Cache K V :=
  moveToTail { c with
    currentWeight := c.currentWeight - c.weight i + w
    value := Function.update c.value i (some value)
    weight := Function.update c.weight i w
    expiresAt := Function.update c.expiresAt i expiresAt } i

/-- The end of `_insertNew`, where no filter stands. -/
def insertNode (c : Cache K V) (key : K) (value : V) (w expiresAt : ℚ) : Cache K V :=
  let (c, i) := allocNode c key value w expiresAt
  let c := append (if c.policy = .s3fifo then c else { c with map := c.map.set key i }) i
  { c with currentWeight := c.currentWeight + w }

/-- `_insertNew` into the window. -/
def insertIntoWindow (c : Cache K V) (sketch : List K → Option K → ℕ) (key : K) (value : V)
    (w expiresAt : ℚ) (previousSize : ℕ) : Cache K V :=
  let (c, i) := allocNode c key value w expiresAt
  let c := append { c with
    map := c.map.set key i, inWindow := Function.update c.inWindow i true } i
  arbitrateWindow { c with currentWeight := c.currentWeight + w } sketch previousSize

/-- A full cache with a sketch and no window refuses a key that was not asked for more
often than the one it would displace. -/
def refused (c : Cache K V) (sketch : List K → Option K → ℕ) (key : K) : Bool :=
  c.maxEntries.any (fun m => decide (m ≤ (c.map.size : ℚ))) &&
    (victim c).any fun i => decide (sketch c.counted (some key) ≤ sketch c.counted (c.key i))

/-- `_insertNew`: `false` when the admission filter refuses the key. -/
def insertNew (c : Cache K V) (key : K) (value : V) (w expiresAt : ℚ) (previousSize : ℕ) :
    Cache K V × Bool :=
  match c.sketch with
  | none => (insertNode c key value w expiresAt, true)
  | some sketch =>
    if c.windowSize.all fun n => decide (0 < n) then
      (insertIntoWindow c sketch key value w expiresAt previousSize, true)
    else if refused c sketch key then
      ({ c with
        counters := { c.counters with rejectedAdmission := c.counters.rejectedAdmission + 1 } },
        false)
    else (insertNode c key value w expiresAt, true)

/-- `set`, past its `_expiresAt`. -/
def store (c : Cache K V) (key : K) (value : V) (expiresAt : ℚ) (weight : Option Weight) :
    Cache K V × Bool :=
  let w := computeWeight c.weightFn value weight
  let c := countWeightError c value weight
  if oversized c w then (reject c key value, false)
  else
    let (c, stored) := match lookup c key with
      | some i => (updateExisting c i value w expiresAt, true)
      | none => insertNew c key value w expiresAt c.map.size
    let c := countKey c key
    (if stored then evictIfNeeded c else c, true)

/-- `set(key, value, { ttl, weight })`: `false` when it is rejected as oversized. -/
def set (c : Cache K V) (key : K) (value : V) (ttl : Option Ttl) (weight : Option Weight)
    (now : ℚ) : Except String (Cache K V × Bool) :=
  match expiresAtOf (ttl.getD c.defaultTTL) now with
  | .error e => .error e
  | .ok expiresAt => .ok (store c key value expiresAt weight)

/-- One entry of `setMany`, which looks its key up in `_map` only. -/
def setManyOne (expiresAt : ℚ) (weight : Option Weight) (c : Cache K V) (p : K × V) : Cache K V :=
  let w := computeWeight c.weightFn p.2 weight
  let c := countWeightError c p.2 weight
  if oversized c w then reject c p.1 p.2
  else
    match c.map.get p.1 with
    | some i => countKey (updateExisting c i p.2 w expiresAt) p.1
    | none =>
      match insertNew c p.1 p.2 w expiresAt c.map.size with
      | (c, true) => countKey c p.1
      | (c, false) => c

/-- `setMany(entries, { ttl, weight })`. -/
def setMany (c : Cache K V) (entries : List (K × V)) (ttl : Option Ttl) (weight : Option Weight)
    (now : ℚ) : Except String (Cache K V) :=
  match expiresAtOf (ttl.getD .never) now with
  | .error e => .error e
  | .ok expiresAt => .ok (evictIfNeeded (entries.foldl (setManyOne expiresAt weight) c))

/-- `touch(key, ttl)`. -/
def touch (c : Cache K V) (key : K) (ttl : Option Ttl) (now : ℚ) :
    Except String (Cache K V × Bool) :=
  let (c, found) := fetchValidNode c key false false now
  match found with
  | none => .ok (c, false)
  | some i =>
    match ttl with
    | none => .ok (moveToTail c i, true)
    | some ttl =>
      match expiresAtOf ttl now with
      | .error e => .error e
      | .ok e =>
        .ok (moveToTail { c with expiresAt := Function.update c.expiresAt i e } i, true)

def delete (c : Cache K V) (key : K) : Cache K V × Bool :=
  let c := abortInflight c (some key)
  match lookup c key with
  | none => (c, false)
  | some i =>
    let c' := unlinkNode c i false
    (freeNode { c' with log := c'.log ++ [.onEvict (c.key i) (c.value i) "deleted"] } i, true)

/-- The loop of `evict`. -/
def evictCount : ℕ → Cache K V → Cache K V × ℕ
  | 0, c => (c, 0)
  | count + 1, c =>
    match victim c with
    | none => (c, 0)
    | some i =>
      let r := evictCount count (evictNode c i)
      (r.1, r.2 + 1)

/-- `evict(count)`. -/
def evict (c : Cache K V) (count : ℤ) : Except String (Cache K V × ℕ) :=
  if count < 0 then
    .error s!"PowerCache evict(count): count must be a non-negative integer number, got {count}"
  else
    let r := evictCount count.toNat c
    .ok (settleCandidate r.1, r.2)

/-- `resize({ maxEntries, maxWeight })`. -/
def resize (c : Cache K V) (maxEntries maxWeight : Option ℚ) : Cache K V :=
  let c := evictIfNeeded { c with
    maxEntries := maxEntries.elim c.maxEntries fun m => some (max 0 m)
    maxWeight := maxWeight.elim c.maxWeight fun m => some (max 0 m) }
  { c with
    cleanupCursor := none, cleanupCursorValid := false, evictionCandidate := c.main.head }

/-- `clear`: the nodes of Main go to the pool, those of Small and Ghost are dropped. -/
def clear (c : Cache K V) : Cache K V :=
  let c := (c.inflight.map Fetch.key).foldl (fun c key => abortInflight c (some key)) c
  let c := (walk c.links.next c.nextNode c.main.head).foldl freeNode c
  { c with
    main := ⟨none, none⟩, small := ⟨none, none⟩, ghost := ⟨none, none⟩
    map := .empty, smallMap := .empty, ghostMap := .empty
    smallSize := 0, ghostSize := 0, sieveHand := none, counted := []
    counters := { c.counters with rejectedAdmission := 0 }
    currentWeight := 0, cleanupCursor := none, cleanupCursorValid := false
    evictionCandidate := none, probationEnd := none, inflight := [] }

/-! ## Sweeps and walks -/

/-- The loop of `cleanupExpiredUpTo` from `node` on: the cache, where it stopped, and
how many nodes it scanned. -/
def cleanupLoop (now : ℚ) (maxScan : Option ℚ) :
    ℕ → ℕ → Option ℕ → Cache K V → Cache K V × Option ℕ × ℕ
  | 0, scanned, node, c => (c, node, scanned)
  | turns + 1, scanned, node, c =>
    match node with
    | none => (c, none, scanned)
    | some i =>
      if maxScan.all fun m => decide ((scanned : ℚ) < m) then
        let next := c.links.next i
        cleanupLoop now maxScan turns (scanned + 1) next
          (if expiredAt c i now then removeExpiredNode c i else c)
      else (c, some i, scanned)

/-- `cleanupExpiredUpTo(maxScan)`: the number of nodes scanned. -/
def cleanupExpiredUpTo (c : Cache K V) (maxScan : Option ℚ) (now : ℚ) : Cache K V × ℕ :=
  let start := if c.cleanupCursorValid then c.cleanupCursor <|> c.main.head else c.main.head
  let (c, node, scanned) := cleanupLoop now maxScan (c.nextNode + 1) 0 start c
  let cursor := node <|> c.main.head
  ({ c with cleanupCursor := cursor, cleanupCursorValid := cursor.isSome }, scanned)

def isLinked (c : Cache K V) (node : Option ℕ) (e : Ends ℕ) : Bool :=
  node.any fun i =>
    (c.links.prev i).isSome || (c.links.next i).isSome || e.head == some i || e.tail == some i

/-- One doomed node of `invalidate`. -/
def invalidateOne (acc : Cache K V × ℕ) (i : ℕ) : Cache K V × ℕ :=
  let c := acc.1
  if (c.key i).bind c.map.get = some i then
    (dropNode (unlinkNode (abortInflight c (c.key i)) i false) i "invalidated", acc.2 + 1)
  else acc

/-- The nodes `invalidate` selects, before it removes one. -/
def doomedNodes (c : Cache K V) (predicate : Option K → Option V → Bool) : List ℕ :=
  let heads := match c.policy with
    | .lru | .slru | .sieve => [c.main.head]
    | .s3fifo => [c.main.head, c.small.head, c.ghost.head]
  (heads.flatMap (walk c.links.next c.nextNode)).filter fun i => predicate (c.key i) (c.value i)

def realignCandidate (c : Cache K V) : Cache K V :=
  if isLinked c c.evictionCandidate c.main then c else { c with evictionCandidate := c.main.head }

/-- `invalidate(predicate)`. -/
def invalidate (c : Cache K V) (predicate : Option K → Option V → Bool) : Cache K V × ℕ :=
  let r := (doomedNodes c predicate).foldl invalidateOne (c, 0)
  (realignCandidate r.1, r.2)

inductive Order where
  | mru
  | lru
  deriving DecidableEq, Repr

/-- A whole `entries(order)` walk with nothing in between. A walk takes at most as many
steps as its queue has entries. -/
def entries (c : Cache K V) (order : Order) : List (Option K × Option V) :=
  let from' (e : Ends ℕ) : Option ℕ := match order with
    | .mru => e.tail
    | .lru => e.head
  let link := match order with
    | .mru => c.links.prev
    | .lru => c.links.next
  let nodes := match c.policy with
    | .lru | .slru | .sieve => walk link c.map.size (from' c.main)
    | .s3fifo => walk link c.map.size (from' c.main) ++ walk link c.smallSize.toNat (from' c.small)
  nodes.map fun i => (c.key i, c.value i)

/-! ## Fetching -/

def staleServable (c : Cache K V) (i : ℕ) (now : ℚ) : Bool :=
  c.staleTtl.all fun t => decide (now ≤ c.expiresAt i + t)

/-- `getOrSetAsync`, up to its factory: it serves an entry of `_map`, joins a fetch
or starts one. The value a fetch comes to is stored by a later `set`. -/
def getOrSetAsync (c : Cache K V) (key : K) (staleWhileRevalidate : Option Bool) (now : ℚ) :
    Cache K V :=
  let fetch (c : Cache K V) : Cache K V :=
    if hasInflight c (some key) then c else addInflight (countMiss c true) key
  match c.map.get key with
  | none => fetch c
  | some i =>
    if expiredAt c i now then
      if staleWhileRevalidate.getD c.allowStale && staleServable c i now then
        let c := countHit (moveToTail c i)
        refreshStaleEntry
          { c with counters := { c.counters with staleServes := c.counters.staleServes + 1 } } key
      else fetch (removeExpiredNode c i)
    else countHit (moveToTail c i)

/-- What `getOrSet` is given for a missing key: a value, or a function and how it ends. The
value of a promise is stored by a later `set`. -/
inductive Factory (V : Type) where
  | value (v : V)
  | returns (v : V)
  | promises
  | throws (error : String)
  deriving DecidableEq

/-- The end of `getOrSet`, where the key is not in the cache. -/
def produce (c : Cache K V) (key : K) (factory : Factory V) (ttl : Option Ttl)
    (weight : Option Weight) (now : ℚ) : Cache K V × Except String (Option V) :=
  match factory with
  | .throws error => (c, .error error)
  | .promises => (c, .ok none)
  | .value v | .returns v =>
    match set c key v ttl weight now with
    | .error e => (c, .error e)
    | .ok r => (r.1, .ok (some v))

/-- The node `getOrSet` finds: with `allowStale` an expired one stays where it is. -/
def findNode (c : Cache K V) (key : K) (allowExpired : Bool) (now : ℚ) : Cache K V × Option ℕ :=
  if allowExpired then
    (c, (lookup c key).filter fun i =>
      !(decide (c.policy = .s3fifo) && (c.map.get key).isNone && c.queue i == .ghost))
  else fetchValidNode c key false false now

/-- `getOrSet(key, factory, { ttl, weight, staleWhileRevalidate })`, with the reading of its
own and that of its `set`. -/
def getOrSet (c : Cache K V) (key : K) (factory : Factory V) (ttl : Option Ttl)
    (weight : Option Weight) (staleWhileRevalidate : Option Bool) (now setNow : ℚ) :
    Cache K V × Except String (Option V) :=
  match findNode c key (staleWhileRevalidate.getD c.allowStale) now with
  | (c, none) => produce (countMiss c true) key factory ttl weight setNow
  | (c, some i) =>
    if expiredAt c i now then
      let isFunction := match factory with
        | .value _ => false
        | _ => true
      if isFunction && staleServable c i now then
        let c := countHit (moveToTail c i)
        let c := refreshStaleEntry
          { c with counters := { c.counters with staleServes := c.counters.staleServes + 1 } } key
        (c, .ok (c.value i))
      else produce (countMiss (removeExpiredNode c i) true) key factory ttl weight setNow
    else
      let c := countHit (moveToTail c i)
      (c, .ok (c.value i))

/-! ## Runs -/

/-- The calls a run is made of, with the clock readings they take. -/
inductive Event (K V : Type) where
  | set (key : K) (value : V) (ttl : Option Ttl) (weight : Option Weight) (now : ℚ)
  | setMany (entries : List (K × V)) (ttl : Option Ttl) (weight : Option Weight) (now : ℚ)
  | get (key : K) (now : ℚ)
  | peek (key : K) (now : ℚ)
  | has (key : K) (ignoreExpiry : Bool) (now : ℚ)
  | getMany (keys : List (K × ℚ)) (ignoreExpiry : Bool)
  | touch (key : K) (ttl : Option Ttl) (now : ℚ)
  | delete (key : K)
  | evict (count : ℤ)
  | invalidate (predicate : Option K → Option V → Bool)
  | getOrSetAsync (key : K) (staleWhileRevalidate : Option Bool) (now : ℚ)
  | finishFetch (key : K) (abort : Bool)
  | resize (maxEntries maxWeight : Option ℚ)
  | cleanupExpiredUpTo (maxScan : Option ℚ) (now : ℚ)
  | entries (order : Order)

inductive Outcome (K V : Type) where
  | done
  | flag (b : Bool)
  | value (v : Option V)
  | values (vs : List (K × Option V))
  | entries (es : List (Option K × Option V))
  | count (n : ℕ)
  | threw (error : String)
  deriving DecidableEq

def settleCall {α : Type} (c : Cache K V) (r : Except String (Cache K V × α))
    (out : α → Outcome K V) : Cache K V × Outcome K V :=
  match r with
  | .error e => (c, .threw e)
  | .ok (c, a) => (c, out a)

def step (c : Cache K V) : Event K V → Cache K V × Outcome K V
  | .set k v ttl w now => settleCall c (set c k v ttl w now) .flag
  | .setMany es ttl w now =>
    settleCall c ((setMany c es ttl w now).map fun c => (c, ())) fun _ => .done
  | .get k now => ((get c k now).1, .value (get c k now).2)
  | .peek k now => ((peek c k now).1, .value (peek c k now).2)
  | .has k ign now => ((has c k ign now).1, .flag (has c k ign now).2)
  | .getMany ks ign => ((getMany c ks ign).1, .values (getMany c ks ign).2)
  | .touch k ttl now => settleCall c (touch c k ttl now) .flag
  | .delete k => ((delete c k).1, .flag (delete c k).2)
  | .evict n => settleCall c (evict c n) .count
  | .invalidate p => ((invalidate c p).1, .count (invalidate c p).2)
  | .getOrSetAsync k swr now => (getOrSetAsync c k swr now, .done)
  | .finishFetch k abort =>
    (dropInflight (if abort then abortInflight c (some k) else c) k, .done)
  | .resize n w => (resize c n w, .done)
  | .cleanupExpiredUpTo n now =>
    ((cleanupExpiredUpTo c n now).1, .count (cleanupExpiredUpTo c n now).2)
  | .entries order => (c, .entries (entries c order))

/-- Any call. `load` is a row of `set`s, `getOrFetch` is `getOrSetAsync`, and `hasEqual`
looks an entry up like `has`. -/
inductive Call (K V : Type) where
  | event (ev : Event K V)
  | getOrSet (key : K) (factory : Factory V) (ttl : Option Ttl) (weight : Option Weight)
      (staleWhileRevalidate : Option Bool) (now setNow : ℚ)
  | clear

/-- The cache a call leaves. -/
def call (c : Cache K V) : Call K V → Cache K V
  | .event ev => (step c ev).1
  | .getOrSet key factory ttl weight swr now setNow =>
    (getOrSet c key factory ttl weight swr now setNow).1
  | .clear => clear c

end

end PerformanceHelpers.PowerCache
