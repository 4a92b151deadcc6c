import PerformanceHelpers.PowerPool.Post
import PerformanceHelpers.Run

/- The events a `PowerPool` handles (`src/helpers/powerPool.js`), as steps of a
   machine.

   A worker's message arrives decoded (`Inbound`): whether it is a ready signal, the
   correlation id its reply settles and the duration it reports. What the
   controllers of `_autoScaleTick` decide is given with the tick: how many workers to
   add or how many idle ones to remove, and the next adaptive limit. -/
namespace PerformanceHelpers.PowerPool

inductive Inbound where
  | announce (native : Bool)
  | data (ready : Bool) (correlationId : Option String) (duration : Option ℚ)
  deriving DecidableEq, Repr

namespace Pool

variable {V : Type} (W : World) (T : ObjectText V)

/-! ## Draining the queue -/

def discard (c : Pool V) (item : QueueItem V) : Pool V :=
  let c' := match item.correlationId with
    | none => c
    | some key =>
      c.cleanupPendingResponse key (match item.signal.filter (· ∈ c.aborted) with
        | some s => .aborted s
        | none => .rejected "EDEADLINE: postMessage queued task deadline elapsed")
  { c' with discards := c.discards ++ [⟨item, c.settled, c'.settled⟩] }

def takeLive (shift : Pool V → List (QueueItem V) → Option (QueueItem V × List (QueueItem V))) :
    ℕ → Pool V → Pool V × Option (QueueItem V)
  | 0, c => (c, none)
  | n + 1, c =>
    match shift c c.queue with
    | none => (c, none)
    | some (item, rest) =>
      let c := { c with queue := rest }
      if item.live c.now c.aborted then (c, some item) else takeLive shift n (c.discard item)

/-- How each drain takes from the queue. -/
def shiftOf : Drain → Pool V → List (QueueItem V) → Option (QueueItem V × List (QueueItem V))
  | .inline => shiftForReply
  | .dispatch => shift

def takeTask (c : Pool V) (drain : Drain) : Pool V × Option (QueueItem V) :=
  let r := takeLive (shiftOf drain) c.queue.length c
  match r.2 with
  | none => r
  | some item =>
    ({ r.1 with takes := r.1.takes ++ [⟨drain, c.now, c.aborted, c.queue, item⟩] }, some item)

def dispatchItem (c : Pool V) (id : ℕ) (item : QueueItem V) : Pool V × Bool :=
  c.dispatchToWorker W T id (c.encodeFor T id item.toPrepared) item.correlationId item.signal true
    item.origin

/-- A task is taken for a worker and dispatched to it: `none` where the queue had no
live task, and whether the dispatch went well. -/
def serve (c : Pool V) (drain : Drain) (id : ℕ) : Pool V × Option Bool :=
  let r := c.takeTask drain
  match r.2 with
  | none => (r.1, none)
  | some item =>
    let s := r.1.dispatchItem W T id item
    (s.1, some s.2)

/-- What `worker.onmessage` takes from the queue. -/
def inlineDrain (c : Pool V) (id : ℕ) : Pool V :=
  match (c.worker? id).filter fun w =>
      c.queuePaused = false ∧ c.queue ≠ [] ∧ Under c.maxTasksPerWorker w.tasks with
  | none => c
  | some _ => (c.serve W T .inline id).1

/-- The state of the loops of `_dispatchQueuedTasks`. -/
structure Dispatching (V : Type) where
  pool : Pool V
  adaptiveSlots : Option ℕ
  dispatched : Bool

/-- The inner loop: one worker takes tasks while it has room, so many turns at most. -/
def fillWorker (id : ℕ) : ℕ → Option ℕ → Dispatching V → Dispatching V
  | 0, _, d => d
  | n + 1, slots, d =>
    if slots = some 0 ∨ d.adaptiveSlots = some 0 ∨ d.pool.queue = [] then d
    else
      let r := d.pool.serve W T .dispatch id
      if r.2 = some true then
        fillWorker id n (slots.map (· - 1)) ⟨r.1, d.adaptiveSlots.map (· - 1), true⟩
      else { d with pool := r.1 }

/-- A worker's turn in `_dispatchQueuedTasks`. -/
def workerTurn (d : Dispatching V) (w : Worker) : Dispatching V :=
  fillWorker W T w.id d.pool.queue.length (d.pool.maxTasksPerWorker.map (· - w.tasks)) d

def dispatchQueuedTasks (c : Pool V) : Pool V :=
  if c.queuePaused = true ∨ c.taskQueueEnabled = false ∨ c.queue = [] then c
  else
    let c := c.refreshReady
    let d := c.readyWorkers.foldl (workerTurn W T)
      ⟨c, c.adaptiveLimitNow.map (· - c.activeTasks), false⟩
    if d.dispatched then d.pool.updateIdleState else d.pool

/-! ## A worker's messages -/

/-- The latency a reply is measured at: what it reports, or the time since its task
was posted. -/
def latency (c : Pool V) (w : Worker) (duration : Option ℚ) : Option ℚ :=
  (duration.orElse fun _ => w.startTimes.head?.map (c.now - ·)).map (max 0)

def alpha (c : Pool V) : ℚ :=
  match c.autoScale with
  | some a => if a.alpha = 0 then 1 / 5 else a.alpha
  | none => 1 / 5

/-- `alpha * x + (1 - alpha) * previous`. -/
def smooth (c : Pool V) (x : ℚ) (previous : Option ℚ) : ℚ :=
  match previous with
  | none => x
  | some l => c.alpha * x + (1 - c.alpha) * l

def recordLatency (c : Pool V) (id : ℕ) (duration : Option ℚ) : Pool V :=
  match (c.worker? id).bind (c.latency · duration) with
  | none => c.updateWorker id fun w => { w with startTimes := w.startTimes.tail }
  | some x =>
    { c.updateWorker id fun w =>
        { w with
          startTimes := w.startTimes.tail
          latencyEwma := some (c.smooth x w.latencyEwma)
          everCompletedTask := true } with
      ewmaLatency := some (c.smooth x c.ewmaLatency) }

/-- `_cleanupPendingResponse` of a reply that carries a correlation id. -/
def settleReply (c : Pool V) (correlationId : Option String) : Pool V :=
  match correlationId with
  | none => c
  | some key => c.cleanupPendingResponse key .resolved

def onmessage (c : Pool V) (id : ℕ) (correlationId : Option String) (duration : Option ℚ) : Pool V :=
  ((((c.countReply id).settleReply correlationId).recordLatency id duration).inlineDrain W T
    id).updateIdleState

def applyCapabilities (c : Pool V) (id : ℕ) (native : Bool) : Pool V :=
  c.updateWorker id fun w => { w with native := c.nativeCloneAvailable && native }

def handleMessage (c : Pool V) (id : ℕ) (message : Inbound) : Pool V :=
  match c.worker? id with
  | none => c
  | some w =>
    match message with
    | .announce native => c.applyCapabilities id native
    | .data ready correlationId duration =>
      if c.readyField.isSome = true ∧ w.ready = false ∧ ready = true then
        (c.updateWorker id fun w => { w with ready := true }).dispatchQueuedTasks W T
      else c.onmessage W T id correlationId duration

/-! ## Workers that come and go -/

/-- `workers.splice` or `pop`. -/
def dropWorker (c : Pool V) (id : ℕ) : Pool V :=
  { c with workers := c.workers.filter fun w => w.id ≠ id }

def swapOut (c : Pool V) (id : ℕ) : Pool V :=
  match c.workers.getLast? with
  | none => c
  | some last =>
    { c with workers := (c.workers.map fun w => if w.id = id then last else w).dropLast }

def retire (c : Pool V) (reason : String) (id : ℕ) : Pool V := (c.terminateWorker id reason).dropWorker id

def retireSwapping (c : Pool V) (reason : String) (ids : List ℕ) : Pool V :=
  ids.foldl (fun c id => (c.terminateWorker id reason).swapOut id) c

def addWorkers : ℕ → Pool V → Pool V
  | 0, c => c
  | n + 1, c =>
    let r := c.tryAddWorker W
    match r.2 with
    | none => r.1
    | some _ => addWorkers n r.1

/-- Refilling to `minSize`, as far as `maxSize` lets. -/
def refill (c : Pool V) : Pool V := c.addWorkers W (min c.minSize c.maxSize - c.workers.length)

/-- `MAX_CONSECUTIVE_BOOTSTRAP_FAILURES`. -/
def maxConsecutiveBootstrapFailures : ℕ := 3

def handleWorkerExit (c : Pool V) (id : ℕ) : Pool V :=
  match c.worker? id with
  | none => c
  | some w =>
    let c := c.retire "worker-exit" id
    let c := { c with
      consecutiveBootstrapFailures := if w.everCompletedTask then 0 else c.consecutiveBootstrapFailures + 1 }
    if w.everCompletedTask = false ∧
        maxConsecutiveBootstrapFailures ≤ c.consecutiveBootstrapFailures then c.updateIdleState
    else if c.terminated then c.updateIdleState
    else (c.refill W).updateIdleState

def addWorker (c : Pool V) : Pool V :=
  if c.terminated then c
  else
    let r := c.tryAddWorker W
    if r.2.isSome then r.1.updateIdleState else r.1

def removeWorker (c : Pool V) : Pool V :=
  match c.workers.getLast? with
  | none => c
  | some w => (c.retire "removeWorker" w.id).updateIdleState

/-- `resize`: the bounds, workers up to `minSize`, and no more than `maxSize`. -/
def resize (c : Pool V) (minSize maxSize : ℕ) : Pool V :=
  let c := { c with minSize, maxSize := max minSize maxSize }
  let c := c.refill W
  (((c.workers.drop c.maxSize).map (·.id)).reverse.foldl (fun c id => c.retire "resize" id)
    c).updateIdleState

def reapable (c : Pool V) : List ℕ :=
  match c.idleTimeout with
  | none => []
  | some t =>
    ((c.workers.reverse.filter fun w => w.tasks = 0 ∧ t < c.now - w.lastActive).map (·.id)).take
      (c.workers.length - c.minSize)

def reapIdleWorkers (c : Pool V) : Pool V :=
  if c.idleTimeout.any fun t => t ≤ 0 then c
  else (c.retireSwapping "idle-reap" c.reapable).updateIdleState

/-- `_autoScaleTick`: so many workers are added, or so many idle ones removed. -/
def autoScaleTick (c : Pool V) (limit : ℚ) (add remove : ℕ) : Pool V :=
  if c.terminated ∨ c.autoScale = none then c
  else
    let c := { c with adaptiveLimit := limit }
    if 0 < add then c.addWorkers W (min add (c.maxSize - c.workers.length))
    else if c.queue = [] then
      c.retireSwapping "autoscale" (((c.workers.reverse.filter fun w => w.tasks = 0).map (·.id)).take
        (min remove (c.workers.length - c.minSize)))
    else c

/-- `_resetPoolForStopThePress`. -/
def resetPool (c : Pool V) (recreate : Bool) : Pool V :=
  let count := c.workers.length
  let c := { c with queue := [] }.rejectAllPending "stopThePress: cancelled pending response"
  let c := c.terminateWorkers (c.workers.map (·.id)).reverse "stopThePress:reset"
  let c := { c with workers := [], activeTasks := 0 }
  (if recreate then c.addWorkers W (max c.minSize (min count c.maxSize)) else c).updateIdleState

def uncheckedDeadline (c : Pool V) (o : PostOptions) : Option ℚ :=
  match o.deadlineAt with
  | none | some .infinity => none
  | some (.finite d) => some d
  | some .negInfinity | some .nan => some c.now

def stopThePress (c : Pool V) (recreate : Bool) (m : Message V) (tr : TransferList)
    (o : PostOptions) (detached : List ℕ) : Pool V :=
  let c := c.resetPool W recreate
  if recreate then (c.postMessageInner W T m tr o detached).1
  else
    (c.enqueueOrReject (prepareForTransfer T c.messageCodec m tr o.zeroCopy) none
      (c.uncheckedDeadline o) o { originOf m tr o none with route := .stopThePress }).1

def shutdown (c : Pool V) : Pool V :=
  if c.terminated then c
  else
    let c := { c with terminated := true }.rejectAllPending "pool:shutdown"
    let c := c.terminateWorkers (c.workers.map (·.id)) "shutdown"
    { c with workers := [], queue := [], activeTasks := 0 }.updateIdleState

/-! ## The machine -/

def broadcast (c : Pool V) (m : Message V) (tr : TransferList) : Pool V :=
  ((c.workers.map (·.id)).foldl (fun c id =>
    (c.dispatchToWorker W T id (prepareBroadcast T m tr) none none false
      { message := m, transfer := tr, route := .broadcast }).1) c).updateIdleState

/-- A signal aborts: the listeners on it are called, each once. -/
def abort (c : Pool V) (s : ℕ) : Pool V :=
  if s ∈ c.aborted then c
  else
    let keys := (c.listeners.filter (·.1 = s)).map (·.2)
    keys.foldl (fun c key => c.cleanupPendingResponse key (.aborted s))
      { c with aborted := s :: c.aborted, listeners := c.listeners.filter (·.1 ≠ s) }

def responseTimeout (c : Pool V) (n : ℕ) : Pool V :=
  match c.pending.find? fun e => e.promise = n ∧ e.timer = true with
  | none => c
  | some e => c.cleanupPendingResponse e.key (.rejected "postMessage response timeout")

def resumeQueue (c : Pool V) : Pool V :=
  if c.queuePaused then { c with queuePaused := false }.dispatchQueuedTasks W T else c

end Pool

/-- What happens to a pool. -/
inductive Event (V : Type) where
  | clock (reading : ℚ)
  | post (m : Message V) (tr : TransferList) (o : PostOptions) (detached : List ℕ)
  | batch (items : List (Pool.BatchItem V)) (o : PostOptions) (ids : Option (List String))
      (detached : List ℕ)
  | broadcast (m : Message V) (tr : TransferList)
  | stopThePress (recreate : Bool) (m : Message V) (tr : TransferList) (o : PostOptions)
      (detached : List ℕ)
  | message (id : ℕ) (message : Inbound)
  | exit (id : ℕ)
  | timeout (promise : ℕ)
  | abort (signal : ℕ)
  | pause
  | resume
  | addWorker
  | removeWorker
  | resize (minSize maxSize : ℕ)
  | reap
  | autoScale (limit : ℚ) (add remove : ℕ)
  | observe
  | shutdown

variable {V : Type}

/-- A step of the machine. -/
def step (W : World) (T : ObjectText V) (c : Pool V) : Event V → Pool V
  | .clock reading => { c with now := max c.now reading }
  | .post m tr o detached => (c.postMessageInner W T m tr o detached).1
  | .batch items o ids detached => (c.postMessageBatch W T items o ids detached).1
  | .broadcast m tr => c.broadcast W T m tr
  | .stopThePress recreate m tr o detached => c.stopThePress W T recreate m tr o detached
  | .message id m => c.handleMessage W T id m
  | .exit id => c.handleWorkerExit W id
  | .timeout n => c.responseTimeout n
  | .abort s => c.abort s
  | .pause => { c with queuePaused := true }
  | .resume => c.resumeQueue W T
  | .addWorker => c.addWorker W
  | .removeWorker => c.removeWorker
  | .resize minSize maxSize => c.resize W minSize maxSize
  | .reap => c.reapIdleWorkers
  | .autoScale limit add remove => c.autoScaleTick W limit add remove
  | .observe => c.observeIdle
  | .shutdown => c.shutdown

/-- A pool as its constructor leaves it, with `initial` workers asked for. -/
def Pool.new (W : World) (config : Config) (minSize maxSize initial : ℕ) (sequence : ℕ) : Pool V :=
  ({ toConfig := config, minSize, maxSize := max minSize maxSize,
     correlationSequence := sequence } : Pool V).addWorkers W initial

end PerformanceHelpers.PowerPool
