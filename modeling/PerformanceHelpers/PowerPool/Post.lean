import PerformanceHelpers.PowerPool.State

/- Posting to a `PowerPool` (`src/helpers/powerPool.js`: `_postMessageInner`,
   `postMessageBatch` and what they call).

   What the pool's surroundings do is a `World`: whether a worker can be built,
   whether a call of its `postMessage` returns, and what `loadBalancer` answers.
   The methods read one clock; listeners of the pool's events do not call it back.
   An empty correlation id is false in JavaScript, and the code tests
   `wantResponse && correlationKey` where it settles a refused request (`refuse`).

   `_postMessageInner` is split where the source decides: `routeOf` is its chain of
   branches, each of which returns, and `takeRoute` what each does. -/
namespace PerformanceHelpers.PowerPool

/-- What the calls out of a pool come to, by how many there have been: whether a
worker's `postMessage` returns and whether the worker of an id can be built. A
`loadBalancer` answers a worker's id, or nothing of use. -/
structure World where
  accepts : ℕ → Bool
  creates : ℕ → Bool
  balances : ℕ → Option ℕ

/-- Nothing that a pool calls fails, and its `loadBalancer` has no answer. -/
def World.sound : World := ⟨fun _ => true, fun _ => true, fun _ => none⟩

/-- The options of `postMessage`. -/
structure PostOptions where
  awaitResponse : Bool := false
  correlationId : Option String := none
  timeout : Option ℕ := none
  workerId : Option ℕ := none
  zeroCopy : Bool := false
  deadlineAt : Option Number := none
  priority : Option ℚ := none
  signal : Option ℕ := none
  deriving DecidableEq

def PostOptions.wantResponse (o : PostOptions) : Bool := o.awaitResponse || o.correlationId.isSome

inductive Result where
  | accepted
  | refused
  | promise (n : ℕ)
  | threw (error : String)
  deriving DecidableEq, Repr

def Result.error? : Result → Option String
  | .threw e => some e
  | _ => none

/-- `correlationKey` and `pendingPromise`, when a response is awaited. -/
abbrev Waiter := Option (String × ℕ)

/-- `wantResponse ? pendingPromise : true`. -/
def answer : Waiter → Result
  | none => .accepted
  | some (_, n) => .promise n

/-- The digits of `toString(36)`. -/
def base36Digit (d : ℕ) : Char := if d < 10 then Char.ofNat (48 + d) else Char.ofNat (87 + d)

/-- `toString(36)`. -/
def base36 (n : ℕ) : String := String.ofList ((Nat.digits 36 n).reverse.map base36Digit)

namespace Pool

variable {V : Type} (W : World) (T : ObjectText V)

/-- A refusal: a waiter's promise is rejected and handed back, and everybody else
is told `false`. -/
def refuse (c : Pool V) (waiter : Waiter) (error : Settlement) : Pool V × Result :=
  match waiter with
  | none => (c, .refused)
  | some (key, n) =>
    if key = "" then (c, .refused) else (c.cleanupPendingResponse key error, .promise n)

/-! ## The queue -/

/-- `queue.shift()` of an eviction, and the rejection of the waiter. -/
def evict (c : Pool V) : Pool V :=
  match c.shift c.queue with
  | none => c
  | some (dropped, rest) =>
    let c' := { c with queue := rest }
    let c' := match dropped.correlationId with
      | none => c'
      | some key =>
        c'.cleanupPendingResponse key (.rejected "postMessage queued task dropped by policy")
    { c' with evictions := c.evictions ++ [⟨c.queue, dropped, c.settled, c'.settled⟩] }

def evictMany : ℕ → Pool V → Pool V
  | 0, c => c
  | n + 1, c => evictMany n c.evict

def reserveQueueSlots (c : Pool V) (count : ℕ) : Pool V × ℕ :=
  match c.maxQueueLength with
  | none => (c, count)
  | some cap =>
    if c.queue.length + count ≤ cap then (c, count)
    else
      let c := if c.queuePolicy = .dropOldest then evictMany (c.queue.length + count - cap) c else c
      (c, cap - c.queue.length)

/-- The error of a queue at its `maxQueueLength`. -/
def queueFullError (c : Pool V) : String :=
  s!"postMessage rejected: task queue is full (maxQueueLength {c.maxQueueLength.getD 0})"

/-- `queue.push(queuedItem)`, and the item's `'abort'` listener. -/
def enqueue (c : Pool V) (item : QueueItem V) : Pool V :=
  { c with
    queue := c.queue ++ [item]
    enqueued := c.enqueued ++ [item]
    listeners := match item.signal, item.correlationId with
      | some s, some key => c.listeners ++ [(s, key)]
      | _, _ => c.listeners }

def pushItem (c : Pool V) (item : QueueItem V) (waiter : Waiter) : Pool V × Result :=
  ((c.enqueue item).updateIdleState, answer waiter)

/-- The item `_enqueueOrReject` builds. -/
def queuedItem (c : Pool V) (prepared : Prepared V) (waiter : Waiter) (deadlineAt : Option ℚ)
    (o : PostOptions) (origin : Origin V) : QueueItem V :=
  { prepared with
    enqueuedAt := c.now
    deadlineAt
    correlationId := (waiter.map (·.1)).filter (· ≠ "")
    priority := o.priority
    signal := o.signal
    origin }

def enqueueOrReject (c : Pool V) (prepared : Prepared V) (waiter : Waiter)
    (deadlineAt : Option ℚ) (o : PostOptions) (origin : Origin V) : Pool V × Result :=
  let item := c.queuedItem prepared waiter deadlineAt o origin
  if c.queuePolicy = .reject ∨ c.queuePolicy = .dropNewest ∧ c.queue ≠ [] then
    c.refuse waiter (.rejected "postMessage rejected by queue policy")
  else if c.queuePolicy = .dropOldest ∧ c.queue ≠ [] then c.evict.pushItem item waiter
  else
    let r := c.reserveQueueSlots 1
    if r.2 = 0 then r.1.refuse waiter (.rejected c.queueFullError) else r.1.pushItem item waiter

/-! ## The post itself -/

/-- One call of a worker's `postMessage`: whether it returns. -/
def attempt (c : Pool V) : Pool V × Bool :=
  ({ c with attempts := c.attempts + 1 }, W.accepts c.attempts)

/-- The `'abort'` listener of `_dispatchToWorker`. -/
def listenForAbort (c : Pool V) (signal : Option ℕ) (key : Option String) : Pool V :=
  match signal, key with
  | some s, some key =>
    if s ∈ c.aborted then c.cleanupPendingResponse key (.aborted s)
    else { c with listeners := c.listeners ++ [(s, key)] }
  | _, _ => c

def postTo (c : Pool V) (id : ℕ) (wire : Wire V) (viaQueue : Bool) (origin : Origin V) : Post V :=
  { worker := id, origin, viaQueue, wire, pastGate := (c.worker? id).any fun w => c.PastGate w,
    now := c.now, aborted := c.aborted }

/-- `_dispatchToWorker`; false where it throws. -/
def dispatchToWorker (c : Pool V) (id : ℕ) (prepared : Prepared V) (key : Option String)
    (signal : Option ℕ) (viaQueue : Bool) (origin : Origin V) : Pool V × Bool :=
  let wire := wrapperMessage T (dispatchedItem T c.messageCodec prepared).message
  let r := c.attempt W
  if r.2 then
    ((r.1.recordPost (c.postTo id wire viaQueue origin) key true).listenForAbort signal key, true)
  else (r.1, false)

/-- `_encodeForWorker` for the worker of an id. -/
def encodeFor (c : Pool V) (id : ℕ) (prepared : Prepared V) : Prepared V :=
  encodeForWorker T c.messageCodec c.nativeCloneAvailable ((c.worker? id).any (·.native)) prepared

/-- The error a worker's `postMessage` throws. -/
def postError : Settlement := .rejected "DataCloneError"

def postToWorkerObj (c : Pool V) (id : ℕ) (prepared : Prepared V) (waiter : Waiter)
    (signal : Option ℕ) (origin : Origin V) (detached : List ℕ) : Pool V × Result :=
  let prepared := c.encodeFor T id prepared
  let key := waiter.map (·.1)
  if canBypassWrapper detached prepared then
    let r := c.attempt W
    if r.2 then
      let c := r.1.recordPost (c.postTo id prepared.message false origin) key false
      (if c.isIdle then c.updateIdleState else c, answer waiter)
    else r.1.refuse waiter postError
  else
    let r := c.dispatchToWorker W T id prepared key signal false origin
    if r.2 then (if r.1.isIdle then r.1.updateIdleState else r.1, answer waiter)
    else r.1.refuse waiter postError

/-- `_addWorkerInstance`: the new worker's id, or `none` where it throws. An id is
used up either way. -/
def tryAddWorker (c : Pool V) : Pool V × Option ℕ :=
  if W.creates c.nextWorkerId then (c.addWorkerInstance, some c.nextWorkerId)
  else ({ c with nextWorkerId := c.nextWorkerId + 1 }, none)

def tryGrowPool (c : Pool V) (prepared : Prepared V) (waiter : Waiter) (signal : Option ℕ)
    (origin : Origin V) (detached : List ℕ) : Pool V × Result :=
  let r := c.tryAddWorker W
  match r.2 with
  | none => r.1.refuse waiter (.rejected "worker construction failed")
  | some id => r.1.postToWorkerObj W T id prepared waiter signal origin detached

/-! ## Choosing a worker -/

/-- What `loadBalancer` answers, if it is the id of a worker. -/
def balanced (c : Pool V) : Option Worker := (W.balances c.consults).bind c.worker?

def selectWorker (c : Pool V) : Pool V × Option Worker :=
  if c.workers = [] then (c, none)
  else
    let c := c.refreshReady
    if c.readyWorkers = [] then (c, none)
    else if c.loadBalancer = false then (c, findLeastLoadedWorker c.readyWorkers)
    else
      ({ c with consults := c.consults + 1 },
        (c.balanced W).orElse fun _ => findLeastLoadedWorker c.workers)

/-- `singleWorkerDirectFastPath`. -/
def SingleWorker (c : Pool V) : Prop :=
  c.workers.length = 1 ∧ c.maxTasksPerWorker = none ∧ c.readyField = none

instance (c : Pool V) : Decidable c.SingleWorker := inferInstanceAs (Decidable (_ ∧ _ ∧ _))

/-- `least`. -/
def leastFor (c : Pool V) (target : Option ℕ) : Pool V × Option Worker :=
  match target with
  | some id => (c, c.worker? id)
  | none => if c.SingleWorker then (c, c.workers.head?) else c.selectWorker W

/-- `adaptiveLimit`. -/
def adaptiveLimitNow (c : Pool V) : Option ℕ :=
  match c.autoScale with
  | some a => if a.adaptive then some (max 1 ⌈c.adaptiveLimit⌉.toNat) else none
  | none => none

/-- `adaptiveLimit !== null && this._activeTasks >= adaptiveLimit`. -/
def AtLimit (c : Pool V) : Prop := ∃ n ∈ c.adaptiveLimitNow, n ≤ c.activeTasks

instance (c : Pool V) : Decidable c.AtLimit :=
  match h : c.adaptiveLimitNow with
  | none => isFalse fun hn => by simp [AtLimit, h] at hn
  | some n => decidable_of_iff (n ≤ c.activeTasks) (by simp [AtLimit, h])

inductive PostRoute where
  | refuse (error : String)
  | queue
  | worker (id : ℕ)
  | grow
  | fallback (id : ℕ)
  deriving DecidableEq, Repr

/-- The chain of branches of `_postMessageInner`. -/
def routeOf (c : Pool V) (least : Option Worker) (target : Option ℕ) : PostRoute :=
  if c.AtLimit then
    if c.taskQueueEnabled then .queue else .refuse "adaptive concurrency limit reached"
  else
    match least.filter fun w => Under c.maxTasksPerWorker w.tasks with
    | some w => .worker w.id
    | none =>
      if target.isSome then .refuse "targeted worker unavailable"
      else if c.workers.length < c.maxSize then .grow
      else if c.taskQueueEnabled then .queue
      else
        match c.refreshReady.readyWorkers[c.nextIndex % c.refreshReady.readyWorkers.length]? with
        | none => .refuse "no worker is ready"
        | some w => .fallback w.id

def advance (c : Pool V) : Pool V :=
  let c := c.refreshReady
  { c with nextIndex := (c.nextIndex + 1) % c.readyWorkers.length }

def takeRoute (c : Pool V) (route : PostRoute) (prepared : Prepared V) (waiter : Waiter)
    (deadlineAt : Option ℚ) (o : PostOptions) (origin : Origin V) (detached : List ℕ) :
    Pool V × Result :=
  match route with
  | .refuse error => c.refuse waiter (.rejected error)
  | .queue => c.enqueueOrReject prepared waiter deadlineAt o origin
  | .worker id => c.postToWorkerObj W T id prepared waiter o.signal origin detached
  | .grow => c.tryGrowPool W T prepared waiter o.signal origin detached
  | .fallback id => c.advance.postToWorkerObj W T id prepared waiter none origin detached

/-! ## `_postMessageInner` -/

def deadlineOf (o : PostOptions) : Except String (Option ℚ) :=
  match o.deadlineAt with
  | none => .ok none
  | some (.finite d) => .ok (some d)
  | some _ => .error "TypeError: postMessage deadlineAt must be finite"

/-- `Object.assign({}, message, { correlationId })`. -/
def withCorrelationId (m : Message V) (id : String) : Message V :=
  match m with
  | .object v => .object (T.assignCorrelationId v id)
  | m => m

def generateCorrelationId (c : Pool V) : Pool V × String :=
  ({ c with correlationSequence := c.correlationSequence + 1 },
    s!"{c.correlationTag}-{base36 c.correlationSequence}")

def correlationIdFor (c : Pool V) (o : PostOptions) : Pool V × String :=
  match o.correlationId with
  | some id => (c, id)
  | none => c.generateCorrelationId

def perCallTimeout (c : Pool V) (o : PostOptions) : ℕ := o.timeout.getD c.awaitResponseTimeout

def register (c : Pool V) (key : String) (o : PostOptions) : Pool V :=
  let c' := c.createPendingResponsePromise key (decide (0 < c.perCallTimeout o))
  { c' with signals := c.signals ++ (o.signal.map fun s => (c.nextPromise, s)).toList }

def originOf (m : Message V) (tr : TransferList) (o : PostOptions) (waiter : Waiter) : Origin V :=
  { message := m, transfer := tr, zeroCopy := o.zeroCopy, route := .post, target := o.workerId,
    priority := o.priority, request := waiter.map (·.2), deadlineAt := o.deadlineAt,
    signal := o.signal }

/-- `_postMessageInner`, once there is a waiter for a request. -/
def postFor (c : Pool V) (least : Option Worker) (m : Message V) (tr : TransferList)
    (waiter : Waiter) (deadlineAt : Option ℚ) (o : PostOptions) (detached : List ℕ) :
    Pool V × Result :=
  if deadlineAt.any fun d => d ≤ c.now then
    c.refuse waiter (.rejected "postMessage deadline elapsed")
  else
    c.takeRoute W T (c.routeOf least o.workerId)
      (prepareForTransfer T c.messageCodec m tr o.zeroCopy) waiter deadlineAt o
      (originOf m tr o waiter) detached

def refuseAborted (c : Pool V) (o : PostOptions) (s : ℕ) : Pool V × Result :=
  if o.wantResponse then
    ({ c with
        nextPromise := c.nextPromise + 1
        signals := c.signals ++ [(c.nextPromise, s)]
        settled := c.settled ++ [(c.nextPromise, .aborted s)] }, .promise c.nextPromise)
  else (c, .refused)

def postRequest (c : Pool V) (least : Option Worker) (m : Message V) (tr : TransferList)
    (deadlineAt : Option ℚ) (o : PostOptions) (detached : List ℕ) : Pool V × Result :=
  let r := c.correlationIdFor o
  if m.isPlainObject then
    (r.1.register r.2 o).postFor W T least (withCorrelationId T m r.2) tr
      (some (r.2, r.1.nextPromise)) deadlineAt o detached
  else (r.1, .threw "postMessage awaitResponse requires a plain-object message")

/-- `_postMessageInner`. `detached` are the buffers of `tr` that are detached. -/
def postMessageInner (c : Pool V) (m : Message V) (tr : TransferList) (o : PostOptions)
    (detached : List ℕ) : Pool V × Result :=
  if c.terminated then (c, .threw "ERR_POOL_TERMINATED: PowerPool has been shut down")
  else
    match deadlineOf o with
    | .error e => (c, .threw e)
    | .ok deadlineAt =>
      let r := c.leastFor W o.workerId
      match o.signal.filter (· ∈ c.aborted) with
      | some s => r.1.refuseAborted o s
      | none =>
        if o.wantResponse then r.1.postRequest W T r.2 m tr deadlineAt o detached
        else r.1.postFor W T r.2 m tr none deadlineAt o detached

/-! ## `postMessageBatch` -/

/-- The loop of a batch that awaits nothing: the worker chosen last, the slots left
under the adaptive limit, the items to queue (with their places) and the answers. -/
structure Batch (V : Type) where
  pool : Pool V
  chosen : Option ℕ
  adaptiveSlots : Option ℕ
  queuedPrepared : List (ℕ × QueueItem V)
  results : List Bool
  idleStateDirty : Bool

def Batch.answer (b : Batch V) (result : Bool) : Batch V := { b with results := b.results ++ [result] }

/-- `adaptiveSlots--`. -/
def Batch.useSlot (b : Batch V) : Batch V := { b with adaptiveSlots := b.adaptiveSlots.map (· - 1) }

def roomAt (c : Pool V) (id : ℕ) : Option ℕ :=
  ((c.worker? id).filter fun w => Under c.maxTasksPerWorker w.tasks).map (·.id)

/-- An item is posted to a worker, which is then kept while it has room. -/
def Batch.dispatch (b : Batch V) (id : ℕ) (prepared : Prepared V) (origin : Origin V) : Batch V :=
  let r := b.pool.dispatchToWorker W T id prepared none none false origin
  if r.2 then
    ({ b with pool := r.1, chosen := r.1.roomAt id, idleStateDirty := true }.useSlot).answer true
  else { b with pool := r.1 }.answer false

def batchItem (c : Pool V) (prepared : Prepared V) (o : PostOptions) (origin : Origin V) :
    QueueItem V :=
  { message := prepared.message, transfer := prepared.transfer, deferred := false,
    enqueuedAt := c.now, priority := some (o.priority.getD 0), origin }

def Batch.collect (b : Batch V) (prepared : Prepared V) (o : PostOptions) (origin : Origin V) :
    Batch V :=
  { b with queuedPrepared := b.queuedPrepared ++
      [(b.results.length, b.pool.batchItem prepared o origin)] }.answer true

def Batch.saturated (b : Batch V) (prepared : Prepared V) (o : PostOptions) (origin : Origin V) :
    Batch V :=
  if o.workerId.isSome then b.answer false
  else if b.pool.taskQueueEnabled then
    if b.pool.queuePolicy = .reject ∨ b.pool.queuePolicy = .dropNewest ∧ b.pool.queue ≠ [] then
      b.answer false
    else if b.pool.queuePolicy = .dropOldest ∧ b.pool.queue ≠ [] then
      { b with pool := b.pool.evict }.collect prepared o origin
    else b.collect prepared o origin
  else
    match b.pool.workers[b.pool.nextIndex % b.pool.workers.length]? with
    | none => b.answer false
    | some w =>
      let c := { b.pool with nextIndex := (b.pool.nextIndex + 1) % b.pool.workers.length }
      let r := c.dispatchToWorker W T w.id prepared none none false origin
      if r.2 then ({ b with pool := r.1, idleStateDirty := true }.useSlot).answer true
      else { b with pool := r.1 }.answer false

def Batch.least (b : Batch V) (o : PostOptions) : Option ℕ :=
  (b.chosen.orElse fun _ =>
    if o.workerId.isSome then none else (findLeastLoadedWorker b.pool.workers).map (·.id)).bind
      b.pool.roomAt

/-- One item of the loop. -/
def Batch.step (b : Batch V) (prepared : Prepared V) (o : PostOptions) (origin : Origin V) :
    Batch V :=
  if b.adaptiveSlots = some 0 then
    if b.pool.taskQueueEnabled then b.collect prepared o origin else b.answer false
  else
    let b := { b with chosen := b.chosen.bind b.pool.roomAt }
    match b.least o with
    | some id => b.dispatch W T id prepared origin
    | none =>
      if o.workerId = none ∧ b.pool.workers.length < b.pool.maxSize then
        let r := b.pool.tryAddWorker W
        match r.2 with
        | none => { b with pool := r.1 }.answer false
        | some id => { b with pool := r.1 }.dispatch W T id prepared origin
      else b.saturated W T prepared o origin

/-- The answers of the items from place `admitted` of the queue's on are `false`. -/
def refuseFrom (results : List Bool) (places : List ℕ) : List Bool :=
  places.foldl (fun rs i => rs.set i false) results

/-- The end of the loop: the items collected are queued, as far as there is room. -/
def Batch.enqueue (b : Batch V) : Batch V :=
  if b.queuedPrepared = [] then b
  else
    let r := b.pool.reserveQueueSlots b.queuedPrepared.length
    let results := refuseFrom b.results ((b.queuedPrepared.drop r.2).map (·.1))
    let admitted := (b.queuedPrepared.take r.2).map (·.2)
    if admitted = [] then { b with pool := r.1, results }
    else { b with
      pool := { r.1 with queue := r.1.queue ++ admitted, enqueued := r.1.enqueued ++ admitted }
      results
      idleStateDirty := true }

/-- An item of a batch. -/
abbrev BatchItem (V : Type) := Message V × TransferList

def batchOrigin (it : BatchItem V) (o : PostOptions) : Origin V :=
  { message := it.1, transfer := it.2, zeroCopy := o.zeroCopy, route := .batch,
    target := o.workerId, priority := o.priority, deadlineAt := o.deadlineAt, signal := o.signal }

def batchLoop (o : PostOptions) (b : Batch V) (items : List (BatchItem V)) : Batch V :=
  items.foldl (fun b it =>
    b.step W T (prepareBuffers T b.pool.messageCodec it.1 it.2 o.zeroCopy) o (batchOrigin it o)) b

def singleLoop (id : ℕ) (o : PostOptions) (b : Batch V) (items : List (BatchItem V)) : Batch V :=
  items.foldl (fun b it =>
    let r := b.pool.dispatchToWorker W T id
      (prepareBuffers T b.pool.messageCodec it.1 it.2 o.zeroCopy) none none false (batchOrigin it o)
    { b with pool := r.1, idleStateDirty := b.idleStateDirty || r.2 }.answer r.2) b

/-- `_updateIdleState`, if the batch changed anything. -/
def Batch.finish (b : Batch V) : Pool V × List Result :=
  (if b.idleStateDirty then b.pool.updateIdleState else b.pool,
    b.results.map fun r => if r then .accepted else .refused)

/-- A batch that awaits nothing. -/
def fireAndForget (c : Pool V) (items : List (BatchItem V)) (o : PostOptions) :
    Pool V × List Result :=
  let slots := c.adaptiveLimitNow.map (· - c.activeTasks)
  let start (chosen : Option ℕ) : Batch V := ⟨c, chosen, slots, [], [], false⟩
  match o.workerId with
  | some id =>
    match c.worker? id with
    | none => (c, items.map fun _ => .refused)
    | some w => (batchLoop W T o (start (some w.id)) items).enqueue.finish
  | none =>
    match c.workers.head?.filter fun _ => c.SingleWorker ∧ slots = none with
    | some w => (singleLoop W T w.id o (start none) items).finish
    | none =>
      (batchLoop W T o (start ((findLeastLoadedWorker c.workers).map (·.id))) items).enqueue.finish

def postEach (c : Pool V) (detached : List ℕ) :
    List (BatchItem V × PostOptions) → Pool V × Except String (List Result)
  | [] => (c, .ok [])
  | (it, o) :: rest =>
    let r := c.postMessageInner W T it.1 it.2 o detached
    match r.2.error? with
    | some e => (r.1, .error e)
    | none =>
      let rs := postEach r.1 detached rest
      (rs.1, rs.2.map (r.2 :: ·))

/-- `_resolveBatchCorrelationIds`: no id twice, and none that is pending. -/
def IdsOk (c : Pool V) (ids : List String) : Prop :=
  ids.Nodup ∧ ∀ id ∈ ids, c.entryFor? id = none

instance (c : Pool V) (ids : List String) : Decidable (c.IdsOk ids) :=
  inferInstanceAs (Decidable (_ ∧ _))

/-- `postMessageBatch`. `ids` is what `correlationIdFactory` answers for the items. -/
def postMessageBatch (c : Pool V) (items : List (BatchItem V)) (o : PostOptions)
    (ids : Option (List String)) (detached : List ℕ) : Pool V × Except String (List Result) :=
  if c.terminated then (c, .error "ERR_POOL_TERMINATED: PowerPool has been shut down")
  else if o.wantResponse then
    match ids with
    | none =>
      if o.correlationId.isSome ∧ 1 < items.length then
        (c, .error ("postMessageBatch cannot use a fixed correlationId for multiple items; provide " ++
          "options.correlationIdFactory or omit correlationId"))
      else c.postEach W T detached (items.map fun it => (it, o))
    | some ids =>
      if c.IdsOk ids then
        c.postEach W T detached
          ((items.zip ids).map fun p => (p.1, { o with correlationId := some p.2 }))
      else (c, .error "ERR_POOL_DUPLICATE_CORRELATION_ID")
  else
    let r := c.fireAndForget W T items o
    (r.1, .ok r.2)

end Pool

end PerformanceHelpers.PowerPool
