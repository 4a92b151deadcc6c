import PerformanceHelpers.Number
import PerformanceHelpers.PowerPool.Message

/- The state of a `PowerPool` and the bookkeeping its methods are made of
   (`src/helpers/powerPool.js`).

   A worker is removed from the model when the pool terminates it: its
   `WorkerAgnostic` is disposed of then, so that nothing of it is heard any more.
   The task queue is the list of its items in the order they were pushed;
   `takeBest` is the order a `PowerPriorityQueue` and `shiftHighestPriority` give.
   Promises are numbered, and `settled` lists how each was settled. Statistics
   that nothing reads back (durations, counts of created workers) are left out.

   Some fields are not the code's. A task carries its `Origin` (what was asked of
   the pool), `posted` and `enqueued` list what has been posted and queued, `evictions`,
   `discards` and `takes` what has left the queue and how, `signals` the abort signals requests
   were made with, `unanswered` counts what a worker has been posted and has not answered, and
   `idleReports` what was in flight and queued each time the pool reported itself
   idle. -/
namespace PerformanceHelpers.PowerPool

/-- `queuePolicy`. -/
inductive QueuePolicy where
  | enqueue
  | dropOldest
  | dropNewest
  | reject
  deriving DecidableEq, Repr

/-- The part of `autoScale` that is read outside of floating-point arithmetic:
whether its `policy` is not `'ewma'`, `hysteresis`, and the `alpha` of latencies. -/
structure AutoScale where
  adaptive : Bool
  hysteresis : ℚ
  alpha : ℚ
  deriving DecidableEq

/-- The options a pool keeps. `none` is `Infinity` for a limit. -/
structure Config where
  maxTasksPerWorker : Option ℕ := none
  taskQueueEnabled : Bool := true
  queuePolicy : QueuePolicy := .enqueue
  maxQueueLength : Option ℕ := none
  /-- `options.priority`: the constructor lets it pass, and keeps it nowhere. -/
  priority : ℚ := 0
  priorityAgingMs : ℚ := 0
  messageCodec : PoolCodec := .framed
  nativeCloneAvailable : Bool := true
  /-- `_readyField`, the field that a ready signal sets. -/
  readyField : Option String := none
  readyTimeout : ℚ := 0
  idleTimeout : Option ℚ := some 60000
  /-- Whether `loadBalancer` is given; what it answers is its caller's. -/
  loadBalancer : Bool := false
  awaitResponseTimeout : ℕ := 0
  autoScale : Option AutoScale := none
  /-- `CORRELATION_PROCESS_TAG`. -/
  correlationTag : String := "tag"
  deriving DecidableEq

/-- `n < limit`. -/
def Under (limit : Option ℕ) (n : ℕ) : Prop := ∀ m ∈ limit, n < m

instance (limit : Option ℕ) (n : ℕ) : Decidable (Under limit n) :=
  match limit with
  | none => isTrue (fun _ h => nomatch h)
  | some m => decidable_of_iff (n < m) ⟨fun h _ hm => Option.some.inj hm ▸ h, fun h => h m rfl⟩

/-- A `WorkerObj`. -/
structure Worker where
  id : ℕ
  tasks : ℕ := 0
  lastActive : ℚ
  latencyEwma : Option ℚ := none
  startTimes : List ℚ := []
  /-- `protocol.native`. -/
  native : Bool := false
  everCompletedTask : Bool := false
  ready : Bool
  createdAt : ℚ
  unanswered : ℕ := 0
  deriving DecidableEq

inductive Route where
  | post
  | batch
  | broadcast
  | stopThePress
  deriving DecidableEq, Repr

/-- What was asked of the pool: the message (with its correlation id, when a
response is awaited), the options that bear on where it goes, and the promise. -/
structure Origin (V : Type) where
  message : Message V
  transfer : TransferList
  zeroCopy : Bool := false
  route : Route
  /-- `workerId`. -/
  target : Option ℕ := none
  priority : Option ℚ := none
  request : Option ℕ := none
  deadlineAt : Option Number := none
  signal : Option ℕ := none
  deriving DecidableEq

structure QueueItem (V : Type) extends Prepared V where
  enqueuedAt : ℚ
  deadlineAt : Option ℚ := none
  correlationId : Option String := none
  priority : Option ℚ := none
  signal : Option ℕ := none
  origin : Origin V
  deriving DecidableEq

structure Entry where
  key : String
  promise : ℕ
  workerId : Option ℕ
  timer : Bool
  deriving DecidableEq

/-- How a promise was settled: with the worker's answer, with the reason of an
abort signal, or with another error. -/
inductive Settlement where
  | resolved
  | aborted (signal : ℕ)
  | rejected (error : String)
  deriving DecidableEq, Repr

/-- A message posted to a worker: whether that worker was past the readiness gate, when,
and which signals had aborted. -/
structure Post (V : Type) where
  worker : ℕ
  origin : Origin V
  viaQueue : Bool
  wire : Wire V
  pastGate : Bool
  now : ℚ := 0
  aborted : List ℕ := []
  deriving DecidableEq

structure Eviction (V : Type) where
  queue : List (QueueItem V)
  victim : QueueItem V
  before : List (ℕ × Settlement)
  after : List (ℕ × Settlement)
  deriving DecidableEq

structure Discard (V : Type) where
  item : QueueItem V
  before : List (ℕ × Settlement)
  after : List (ℕ × Settlement)
  deriving DecidableEq

/-- Who takes from the queue: `worker.onmessage`, or `_dispatchQueuedTasks`. -/
inductive Drain where
  | inline
  | dispatch
  deriving DecidableEq, Repr

structure Take (V : Type) where
  drain : Drain
  now : ℚ
  aborted : List ℕ
  queue : List (QueueItem V)
  item : QueueItem V
  deriving DecidableEq

/-- A pool. -/
structure Pool (V : Type) extends Config where
  minSize : ℕ := 1
  maxSize : ℕ := 1
  workers : List Worker := []
  nextWorkerId : ℕ := 0
  nextIndex : ℕ := 0
  queue : List (QueueItem V) := []
  queuePaused : Bool := false
  terminated : Bool := false
  adaptiveLimit : ℚ := 1
  ewmaLatency : Option ℚ := none
  consecutiveBootstrapFailures : ℕ := 0
  pending : List Entry := []
  /-- `_correlationSequence`. -/
  correlationSequence : ℕ := 0
  /-- The abort signals that have aborted, and the `'abort'` listeners of the pool:
  a signal, and the correlation id the listener settles. -/
  aborted : List ℕ := []
  listeners : List (ℕ × String) := []
  activeTasks : ℕ := 0
  isIdle : Bool := true
  busySince : Option ℚ := none
  busyTimeMs : ℚ := 0
  now : ℚ := 0
  /-- Calls of a worker's `postMessage`, and of `loadBalancer`. -/
  attempts : ℕ := 0
  consults : ℕ := 0
  nextPromise : ℕ := 0
  settled : List (ℕ × Settlement) := []
  signals : List (ℕ × ℕ) := []
  posted : List (Post V) := []
  enqueued : List (QueueItem V) := []
  evictions : List (Eviction V) := []
  discards : List (Discard V) := []
  takes : List (Take V) := []
  idleReports : List (ℕ × ℕ) := []
  deriving DecidableEq

/-! ## Taking from a queue -/

def takeBest {α : Type} (priority : α → ℚ) : List α → Option (α × List α)
  | [] => none
  | x :: xs =>
    match takeBest priority xs with
    | none => some (x, [])
    | some (y, ys) => if priority x < priority y then some (y, x :: ys) else some (x, xs)

theorem takeBest_perm {α : Type} {priority : α → ℚ} {xs ys : List α} {x : α}
    (h : takeBest priority xs = some (x, ys)) : xs.Perm (x :: ys) := by
  induction xs generalizing x ys with
  | nil => cases h
  | cons z zs ih =>
    rw [takeBest] at h
    cases hz : takeBest priority zs with
    | none =>
      rw [hz] at h
      cases h
      cases zs with
      | nil => exact List.Perm.refl _
      | cons w ws =>
        -- a queue with an item in it has a best one
        rw [takeBest] at hz
        split at hz
        · cases hz
        · split at hz <;> cases hz
    | some yws =>
      obtain ⟨y, ws⟩ := yws
      rw [hz] at h
      simp only at h
      split at h
      · cases h
        exact ((ih hz).cons z).trans (List.Perm.swap x z ws)
      · cases h
        exact List.Perm.refl _

def QueueItem.itemPriority {V : Type} (item : QueueItem V) : ℚ := item.priority.getD 0

def QueueItem.agedPriority {V : Type} (agingMs now : ℚ) (item : QueueItem V) : ℚ :=
  item.priority.getD 0 + max 0 (now - item.enqueuedAt) / agingMs

def QueueItem.live {V : Type} (now : ℚ) (aborted : List ℕ) (item : QueueItem V) : Bool :=
  (match item.deadlineAt with
    | none => true
    | some deadline => now < deadline) &&
  match item.signal with
  | none => true
  | some s => !aborted.contains s

namespace Pool

variable {V : Type} (c : Pool V)

/-- `queue.shift()`: a heap, unless aging is on. -/
def shift : List (QueueItem V) → Option (QueueItem V × List (QueueItem V)) :=
  if c.priorityAgingMs ≤ 0 then takeBest QueueItem.itemPriority
  else fun q => q.head?.map fun item => (item, q.tail)

/-- What a worker's reply takes from the queue. -/
def shiftForReply : List (QueueItem V) → Option (QueueItem V × List (QueueItem V)) :=
  if c.priorityAgingMs ≤ 0 then c.shift
  else takeBest (QueueItem.agedPriority c.priorityAgingMs c.now)

/-! ## Workers -/

/-- `this.workers.find((w) => w.id === id)`. -/
def worker? (id : ℕ) : Option Worker := c.workers.find? (·.id == id)

def updateWorker (id : ℕ) (f : Worker → Worker) : Pool V :=
  { c with workers := c.workers.map fun w => if w.id = id then f w else w }

def PastGate (w : Worker) : Prop :=
  c.readyField = none ∨ w.ready = true ∨ (0 < c.readyTimeout ∧ c.readyTimeout ≤ c.now - w.createdAt)

instance (w : Worker) : Decidable (c.PastGate w) := inferInstanceAs (Decidable (_ ∨ _))

/-- The marks `_readyWorkers` leaves: a worker whose bound has passed is ready. -/
def refreshReady : Pool V :=
  { c with workers := c.workers.map fun w => if c.PastGate w then { w with ready := true } else w }

/-- `_readyWorkers`, after `refreshReady`. -/
def readyWorkers : List Worker :=
  if c.readyField = none then c.workers else c.workers.filter (·.ready)

/-- Whether `_findLeastLoadedWorker` takes `w` over `best`. -/
def lessLoaded (w best : Worker) : Bool :=
  w.tasks < best.tasks || (w.tasks = best.tasks &&
    match w.latencyEwma, best.latencyEwma with
    | some l, some l' => l < l'
    | some _, none => true
    | none, _ => false)

def findLeastLoadedWorker : List Worker → Option Worker
  | [] => none
  | w :: ws => some (ws.foldl (fun best w => if lessLoaded w best then w else best) w)

/-- The worker `_addWorkerInstance` builds. -/
def newWorker : Worker :=
  { id := c.nextWorkerId, lastActive := c.now, ready := c.readyField.isNone, createdAt := c.now }

/-- `_addWorkerInstance`, when the worker can be created. -/
def addWorkerInstance : Pool V :=
  { c with workers := c.workers ++ [c.newWorker], nextWorkerId := c.nextWorkerId + 1 }

/-! ## Pending responses -/

/-- `_pendingResponses.get(key)`. -/
def entryFor? (key : String) : Option Entry := c.pending.find? (·.key == key)

def cleanupPendingResponse (key : String) (s : Settlement) : Pool V :=
  match c.entryFor? key with
  | none => c
  | some entry =>
    { c with
      pending := c.pending.filter fun e => e.key != key
      settled := c.settled ++ [(entry.promise, s)] }

/-- `_createPendingResponsePromise`; a previous waiter under the key is rejected. -/
def createPendingResponsePromise (key : String) (timer : Bool) : Pool V :=
  let c := c.cleanupPendingResponse key (.rejected s!"duplicate correlationId: {key}")
  { c with
    pending := c.pending ++ [⟨key, c.nextPromise, none, timer⟩]
    nextPromise := c.nextPromise + 1 }

def markEntries (key : Option String) (id : ℕ) (pending : List Entry) : List Entry :=
  match key with
  | none => pending
  | some k => pending.map fun e => if e.key = k then { e with workerId := some id } else e

def markPendingWorker (key : Option String) (id : ℕ) : Pool V :=
  { c with pending := markEntries key id c.pending }

def rejectPendingForWorker (id : ℕ) (reason : String) : Pool V :=
  ((c.pending.filter fun e => e.workerId = some id).map (·.key)).foldl
    (fun c key => c.cleanupPendingResponse key (.rejected
      s!"postMessage failed: worker {id} was terminated ({reason}) before responding")) c

def rejectAllPending (error : String) : Pool V :=
  let c := (c.pending.map (·.key)).foldl
    (fun c key => c.cleanupPendingResponse key (.rejected error)) c
  { c with pending := [] }

/-! ## Counters -/

def closeBusyInterval (before after : ℕ) : Pool V :=
  match c.busySince with
  | some since =>
    if 0 < before ∧ after = 0 then
      { c with busyTimeMs := c.busyTimeMs + max 0 (c.now - since), busySince := none }
    else c
  | none => if before = 0 ∧ 0 < after then { c with busySince := some c.now } else c

def decrementActiveTasks (n : ℕ) : Pool V :=
  { c with activeTasks := c.activeTasks - n }.closeBusyInterval c.activeTasks (c.activeTasks - n)

def totalTasks : ℕ := (c.workers.map (·.tasks)).sum

/-- `_updateIdleState`; `_emitIdle` reports the pool idle. -/
def updateIdleState : Pool V :=
  let allIdle := c.activeTasks = 0 ∧ c.queue = []
  if allIdle ∧ c.isIdle = false then
    { c with
      isIdle := true
      idleReports := c.idleReports ++ [(c.totalTasks, c.queue.length)] }
  else if ¬ allIdle ∧ c.isIdle = true then { c with isIdle := false }
  else c

/-- A caller asks: `getStats().isIdle`, or an `'idle'` listener is added. -/
def observeIdle : Pool V :=
  if c.activeTasks = 0 ∧ c.queue = [] then
    { c with idleReports := c.idleReports ++ [(c.totalTasks, c.queue.length)] }
  else c

/-- What a successful post changes. The bypass path (`busy` false) leaves the busy
interval alone. -/
def recordPost (post : Post V) (key : Option String) (busy : Bool) : Pool V :=
  let c' := (c.updateWorker post.worker fun w =>
      { w with
        tasks := w.tasks + 1
        unanswered := w.unanswered + 1
        startTimes := w.startTimes ++ [c.now]
        lastActive := c.now }).markPendingWorker key post.worker
  let c' := { c' with activeTasks := c.activeTasks + 1, posted := c.posted ++ [post] }
  if busy then c'.closeBusyInterval c.activeTasks (c.activeTasks + 1) else c'

/-- A worker's message is counted: `onmessage` before it looks at the data. -/
def countReply (id : ℕ) : Pool V :=
  (c.updateWorker id fun w =>
    { w with
      tasks := w.tasks - 1
      unanswered := w.unanswered - 1
      lastActive := c.now }).decrementActiveTasks 1

/-- `_terminateWorker`. The worker stays in the list until its caller removes it. -/
def terminateWorker (id : ℕ) (reason : String) : Pool V :=
  match c.worker? id with
  | none => c
  | some w =>
    let c := if 0 < w.tasks then c.decrementActiveTasks w.tasks else c
    (c.updateWorker id fun w => { w with tasks := 0 }).rejectPendingForWorker id reason

/-- Every worker terminated, in the order of `ids`. -/
def terminateWorkers (ids : List ℕ) (reason : String) : Pool V :=
  ids.foldl (fun c id => c.terminateWorker id reason) c

end Pool

end PerformanceHelpers.PowerPool
