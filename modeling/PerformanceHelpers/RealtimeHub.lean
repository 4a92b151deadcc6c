import PerformanceHelpers.MessageCodec
import PerformanceHelpers.Options
import PerformanceHelpers.Run

/- `PowerRealtimeHub` (`src/helpers/powerRealtimeHub.js`): topics, subscribers
   with bounded queues, and batched sends.

   The caller's objects are a heap: `objects ref` is the JSON value an object
   stringifies to now, `none` when it cannot be stringified (a cycle, a BigInt).
   A step ends where the hub calls its `send` adapter or a handler, since either
   may call the hub back; `stack` is what then remains to be done, innermost
   first. The adapters `close`, `rateLimit` and `onError` are taken not to call
   the hub.

   What is proved:
     1. `step_frames`, `step_sends` — only a flush touches the frame memo and the
        sends, and what it sends is the batch it splices.
     2. `frames_decode_iff` — over a whole run of a `json` hub, every frame handed to `send`
        decodes to the batch spliced for it, with the content its messages have
        then, exactly when every batch flushed under the memo's key (same length,
        same first and last message) has the content of the batch the memo was
        made from, and every text encoded is shorter than 2^32 bytes. The key
        says nothing of the messages in between, or of an object's content
        (`memo_substitutes`). -/
namespace PerformanceHelpers.RealtimeHub

open MessageCodec (frameEncodedJson decodeMessage Value)

/-- A published message. Primitives are compared by value, objects by reference. -/
inductive Message (J : Type) where
  | prim (value : J)
  | object (ref : ℕ)
  deriving DecidableEq

/-- `SLOW_CONSUMER_POLICIES`. -/
inductive SlowConsumer where
  | dropOldest
  | dropNewest
  | disconnect
  deriving DecidableEq, Repr

structure Queued (J : Type) where
  message : Message J
  priority : ℚ

/-! ## `HubQueue` -/

/-- `PowerPriorityQueue.push`, the heap read in the order it is shifted: higher
priority first, and the earlier one of equals. -/
def insertQueued {J : Type} : List (Queued J) → Queued J → List (Queued J)
  | [], x => [x]
  | y :: ys, x => if y.priority < x.priority then x :: y :: ys else y :: insertQueued ys x

/-- `HubQueue.push`. -/
def pushQueue {J : Type} (byPriority : Bool) (q : List (Queued J)) (x : Queued J) :
    List (Queued J) :=
  if byPriority then insertQueued q x else q ++ [x]

/-- `HubQueue.dropOldest`: the oldest of a FIFO queue, the lowest of a heap. -/
def dropOldest {J : Type} (byPriority : Bool) (q : List (Queued J)) : List (Queued J) :=
  if byPriority then q.dropLast else q.tail

/-- A subscriber object. Of its sends, `settling` await the transport, and
`chained` have been settled and not yet been through the handlers. `accepted` and
`handed` are not fields of the source: the messages `_enqueue` took in, and those
handed to `send`, in order. -/
structure Sub (J : Type) where
  id : String
  topic : String
  maxQueue : ℕ
  slowConsumer : SlowConsumer
  maxBatch : ℕ
  priority : ℚ
  queue : List (Queued J)
  inFlight : ℤ
  bytesSent : ℕ
  dropped : ℕ
  closed : Bool
  settling : ℕ
  chained : ℕ
  accepted : List (Queued J)
  handed : List (Queued J)

/-- `_counters`. -/
structure Counters where
  published : ℕ := 0
  delivered : ℕ := 0
  dropped : ℕ := 0
  disconnected : ℕ := 0
  bytesOut : ℕ := 0
  encoded : ℕ := 0
  rateLimited : ℕ := 0

/-- `_frameMemo`, `_frameMemoLength`, `_frameMemoFirst` and `_frameMemoLast`. -/
structure FrameMemo (J : Type) where
  frame : List UInt8
  length : ℕ
  first : Option (Message J)
  last : Option (Message J)

/-- One call of `send`: the batch spliced for it, what its messages stringify to
at that moment, and the frame handed over. -/
structure Send (J : Type) where
  sub : ℕ
  batch : List (Message J)
  contents : Option (List J)
  frame : List UInt8
  deriving DecidableEq

/-- The hub's codec. `raw` carries what the bytes of a value are, `none` when it is
neither an ArrayBuffer nor a typed array. -/
inductive Codec (J : Type) where
  | json
  | raw (payload : J → Option (List UInt8))

/-- The codec, the memo and the sends so far. `encoded` is not a field of the
source: it holds the content of the batch the memo's frame was made from. -/
structure Frames (J : Type) where
  memo : Option (FrameMemo J)
  encoded : List J
  sends : List (Send J)
  codec : Codec J

/-- What the hub has begun and not finished: a `_drain` or `_flushAll` loop with
the subscribers still to come, a call of `send`, a round of handlers. -/
inductive Activity where
  | drain (rest : List ℕ)
  | flushAll (rest : List ℕ)
  | send (sub : ℕ) (bytes : ℕ)
  | handlers (sub : ℕ)

structure Hub (J : Type) where
  batch : Bool
  batchDelayMs : ℤ
  messagePriority : Bool
  rateLimit : Bool
  subs : ℕ → Sub J
  nextSub : ℕ
  /-- `_subs`, in insertion order. -/
  subscribers : List ℕ
  /-- `_topics`; a topic without subscribers has no bucket. -/
  topics : String → List ℕ
  retained : String → List (Message J)
  flushScheduled : Bool
  flushTimer : Bool
  /-- Microtasks queued by `_scheduleFlush` that have not run. -/
  microtasks : ℕ
  closed : Bool
  counters : Counters
  frames : Frames J
  objects : ℕ → Option J
  stack : List Activity
  /-- `_drainSubscriberFully` calls suspended at an `await`. -/
  waiting : List ℕ

/-- The constructor's options, the adapters aside. -/
structure Options where
  batch : Bool := true
  batchDelayMs : Option ℤ := none
  messagePriority : Bool := false
  rateLimit : Bool := false

section
variable {J : Type}

/-- The constructor, over the heap the caller has. -/
def newWith (codec : Codec J) (o : Options) (objects : ℕ → Option J) : Except String (Hub J) := do
  let batchDelayMs ← assertLimitRequired o.batchDelayMs "batchDelayMs" "PowerRealtimeHub" 0 0
  pure
    { batch := o.batch, batchDelayMs, messagePriority := o.messagePriority
      rateLimit := o.rateLimit
      subs := fun _ => ⟨"", "", 0, .dropOldest, 1, 0, [], 0, 0, 0, true, 0, 0, [], []⟩, nextSub := 0
      subscribers := [], topics := fun _ => [], retained := fun _ => []
      flushScheduled := false, flushTimer := false, microtasks := 0, closed := false
      counters := {}, frames := ⟨none, [], [], codec⟩, objects, stack := [], waiting := [] }

/-- The constructor with the default codec. -/
def new (o : Options) (objects : ℕ → Option J) : Except String (Hub J) := newWith .json o objects

def Codec.isRaw : Codec J → Bool
  | .json => false
  | .raw _ => true

def Hub.setSub (h : Hub J) (i : ℕ) (s : Sub J) : Hub J :=
  { h with subs := Function.update h.subs i s }

/-! ## Queueing -/

/-- `_scheduleFlush`: one timer or microtask at a time. -/
def scheduleFlush (h : Hub J) : Hub J :=
  if !h.batch then h
  else if h.flushScheduled then h
  else if 0 < h.batchDelayMs then { h with flushScheduled := true, flushTimer := true }
  else { h with flushScheduled := true, microtasks := h.microtasks + 1 }

/-- `_detach`: close the subscriber and take it out of the maps; the last one of
a topic takes the retained messages with it. -/
def detach (h : Hub J) (i : ℕ) : Hub J :=
  let s := h.subs i
  if s.closed then h
  else
    let bucket := (h.topics s.topic).erase i
    { h.setSub i { s with closed := true } with
      subscribers := h.subscribers.erase i
      topics := Function.update h.topics s.topic bucket
      retained := if bucket.isEmpty then Function.update h.retained s.topic [] else h.retained }

def countDropped (h : Hub J) (i : ℕ) (n : ℕ) : Hub J :=
  { h.setSub i { h.subs i with dropped := (h.subs i).dropped + n } with
    counters := { h.counters with dropped := h.counters.dropped + n } }

/-- `_enqueue` refuses a message: drop it, and disconnect where that is the policy. -/
def refuse (h : Hub J) (i : ℕ) : Hub J :=
  let h' := countDropped h i 1
  match (h.subs i).slowConsumer with
  | .dropOldest | .dropNewest => h'
  | .disconnect =>
    detach { h' with
      counters := { h'.counters with disconnected := h'.counters.disconnected + 1 } } i

def dropQueued (h : Hub J) (i : ℕ) : Hub J :=
  let s := h.subs i
  countDropped (h.setSub i { s with queue := dropOldest h.messagePriority s.queue }) i 1

/-- The loop of `_enqueue`, over the messages there are to drop. `false` when the
new message is refused. -/
def makeRoom (i : ℕ) : ℕ → Hub J → Hub J × Bool
  | 0, h => if (h.subs i).queue.length < (h.subs i).maxQueue then (h, true) else (refuse h i, false)
  | turns + 1, h =>
    if (h.subs i).queue.length < (h.subs i).maxQueue then (h, true)
    else if (h.subs i).slowConsumer = .dropOldest then makeRoom i turns (dropQueued h i)
    else (refuse h i, false)

def enqueue (h : Hub J) (i : ℕ) (message : Message J) (priority : ℚ) : Hub J × Bool :=
  let (h, room) := makeRoom i (h.subs i).queue.length h
  if room then
    let s := h.subs i
    (h.setSub i { s with
      queue := pushQueue h.messagePriority s.queue ⟨message, priority⟩
      accepted := s.accepted ++ [⟨message, priority⟩] }, true)
  else (h, false)

/-- `RETAIN_LIMIT`. -/
def retainLimit : ℕ := 32

/-- `_retain`: the last `RETAIN_LIMIT` messages of a topic. -/
def retain (h : Hub J) (topic : String) (message : Message J) : Hub J :=
  let log := h.retained topic ++ [message]
  { h with retained := Function.update h.retained topic (log.drop (log.length - retainLimit)) }

/-- One pass of `publish`'s loop: offer the message to a subscriber and count the
queues it went to. -/
def offer (message : Message J) (priority : ℚ) (acc : Hub J × ℕ) (i : ℕ) : Hub J × ℕ :=
  if (acc.1.subs i).closed then acc
  else
    let (h, accepted) := enqueue acc.1 i message priority
    (h, if accepted then acc.2 + 1 else acc.2)

/-- `publish` counts the message, and retains it when asked to. -/
def recordPublish (h : Hub J) (topic : String) (message : Message J) (retained : Bool) : Hub J :=
  let h := { h with counters := { h.counters with published := h.counters.published + 1 } }
  if retained then retain h topic message else h

/-- `publish(topic, message, { retain, priority })`; `admitted` is the rate
limiter's answer. Returns the number of queues the message went to. -/
def publish (h : Hub J) (topic : String) (message : Message J) (retained : Bool)
    (priority : Option ℚ) (admitted : Bool) : Except String (Hub J × ℕ) :=
  if h.closed then .ok (h, 0)
  else if priority.isSome && !h.messagePriority then
    .error ("PowerRealtimeHub: `publish(\x7b priority \x7d)` requires the hub option " ++
      "`messagePriority: true`. Without it every subscriber's queue is FIFO, so the " ++
      "priority you passed would order nothing.")
  else
    let h := recordPublish h topic message retained
    let bucket := h.topics topic
    if bucket.isEmpty then .ok (h, 0)
    else if h.rateLimit && !admitted then
      .ok ({ h with counters :=
        { h.counters with rateLimited := h.counters.rateLimited + 1 } }, 0)
    else
      let (h, queued) := bucket.foldl (offer message (priority.getD 0)) (h, 0)
      .ok (if 0 < queued then scheduleFlush h else h, queued)

/-- The loop of `subscribe` over a topic's retained messages. It reads the live
log, which ends when a `_detach` in it has emptied the log. -/
def replay (h : Hub J) (i : ℕ) (topic : String) (log : List (Message J)) : Hub J :=
  log.foldl (fun h m => if (h.retained topic).isEmpty then h else (enqueue h i m 0).1) h

/-- The options of `subscribe`, as numbers. -/
structure SubOptions where
  maxQueue : ℚ := 64
  slowConsumer : SlowConsumer := .dropOldest
  maxBatch : ℚ := 32
  id : Option String := none
  priority : ℚ := 0

/-- `subscribe(topic, handler, options)`. `nextSubId` is the module's counter
after its increment, which every hub shares. -/
def subscribe (h : Hub J) (topic : String) (o : SubOptions) (nextSubId : ℕ) :
    Except String (Hub J) :=
  if h.closed then .error "PowerRealtimeHub: hub is closed"
  else if topic = "" then .error "PowerRealtimeHub: `topic` must be a non-empty string"
  else if o.maxQueue < 0 then
    .error "PowerRealtimeHub: `maxQueue` must be a non-negative finite number"
  else if o.maxBatch < 1 then .error "PowerRealtimeHub: `maxBatch` must be >= 1"
  else if h.frames.codec.isRaw && decide (1 < ⌊o.maxBatch⌋) then
    .error ("PowerRealtimeHub: `codec: \"raw\"` delivers one message per frame, so a " ++
      "subscriber must use `maxBatch: 1`. Use codec \"json\" if you need batching.")
  else
    let id := o.id.getD s!"sub-{nextSubId}"
    if h.subscribers.any fun i => (h.subs i).id == id then
      .error s!"PowerRealtimeHub: duplicate subscriber id \"{id}\""
    else
      let i := h.nextSub
      let h := { h.setSub i
          ⟨id, topic, ⌊o.maxQueue⌋.toNat, o.slowConsumer, ⌊o.maxBatch⌋.toNat, o.priority,
            [], 0, 0, 0, false, 0, 0, [], []⟩ with
        nextSub := i + 1
        subscribers := h.subscribers ++ [i]
        topics := Function.update h.topics topic (h.topics topic ++ [i]) }
      if (h.retained topic).isEmpty then .ok h
      else .ok (scheduleFlush (replay h i topic (h.retained topic)))

/-- `unsubscribe(id)`. -/
def unsubscribe (h : Hub J) (id : String) : Hub J :=
  match h.subscribers.find? fun i => (h.subs i).id == id with
  | none => h
  | some i => detach h i

/-- `close()`. -/
def close (h : Hub J) : Hub J :=
  if h.closed then h
  else
    let h := h.subscribers.foldl detach { h with closed := true, flushTimer := false }
    { h with topics := fun _ => [], retained := fun _ => [] }

/-! ## Encoding and sending -/

/-- `===` on the memo's key: the length and the two end messages. -/
def FrameMemo.matches [DecidableEq J] (m : FrameMemo J) (batch : List (Message J)) : Bool :=
  m.length == batch.length && m.first == batch.head? && m.last == batch.getLast?

def content (objects : ℕ → Option J) : Message J → Option J
  | .prim v => some v
  | .object ref => objects ref

/-- What a batch stringifies to now; `none` when `JSON.stringify` throws. -/
def contents (objects : ℕ → Option J) (batch : List (Message J)) : Option (List J) :=
  batch.mapM (content objects)

variable [DecidableEq J] (T : JsonText (List J))

/-- `_encodeBatch` of a batch that is not empty under the `json` codec: the memo's
frame on a match, else a new frame that becomes the memo. `none` when stringifying
throws. -/
def encodeJson (objects : ℕ → Option J) (f : Frames J) (batch : List (Message J)) :
    Option (List UInt8 × Frames J) :=
  match f.memo.filter (·.matches batch) with
  | some memo => some (memo.frame, f)
  | none =>
    match contents objects batch with
    | none => none
    | some values =>
      let frame := frameEncodedJson (T.stringify values)
      some (frame, { f with
        memo := some ⟨frame, batch.length, batch.head?, batch.getLast?⟩
        encoded := values })

/-- `_encodeBatch`. A raw frame carries one payload; `none` when it throws. -/
def encodeBatch (objects : ℕ → Option J) (f : Frames J) (batch : List (Message J)) :
    Option (List UInt8 × Frames J) :=
  match f.codec, batch with
  | .json, batch => encodeJson T objects f batch
  | .raw payload, [m] =>
    ((content objects m).bind payload).map fun bytes => (MessageCodec.frame .raw bytes, f)
  | .raw _, _ => none

/-- `_encodeBatch` counts a frame: a JSON one that is not the memo's. -/
def Frames.encodes (f : Frames J) (batch : List (Message J)) : Bool :=
  !f.codec.isRaw && (f.memo.filter (·.matches batch)).isNone

/-- The messages `queue.splice(0, maxBatch)` takes out. -/
def nextBatch (h : Hub J) (i : ℕ) : List (Message J) :=
  ((h.subs i).queue.take (h.subs i).maxBatch).map (·.message)

/-- `_flushSubscriber`, up to the call of `send`. -/
def flushSubscriber (h : Hub J) (i : ℕ) : Hub J :=
  let s := h.subs i
  let batch := nextBatch h i
  if batch.isEmpty then h
  else
    let rest := s.queue.drop s.maxBatch
    match encodeBatch T h.objects h.frames batch with
    | none => countDropped (h.setSub i { s with queue := rest }) i batch.length
    | some (frame, frames) =>
      let sent := ⟨i, batch, contents h.objects batch, frame⟩
      { h.setSub i { s with
          queue := rest, inFlight := s.inFlight + 1
          handed := s.handed ++ s.queue.take s.maxBatch } with
        counters :=
          { h.counters with
            delivered := h.counters.delivered + batch.length
            encoded :=
              if h.frames.encodes batch then h.counters.encoded + 1 else h.counters.encoded }
        frames := { frames with sends := frames.sends ++ [sent] }
        stack := .send i frame.length :: h.stack }

/-- `send` returned: count the bytes and wait for the transport. -/
def sendReturned (h : Hub J) (i bytes : ℕ) : Hub J :=
  let s := h.subs i
  { h.setSub i { s with bytesSent := s.bytesSent + bytes, settling := s.settling + 1 } with
    counters := { h.counters with bytesOut := h.counters.bytesOut + bytes } }

/-- `send` threw. -/
def sendThrew (h : Hub J) (i : ℕ) : Hub J :=
  h.setSub i { h.subs i with inFlight := (h.subs i).inFlight - 1 }

def settled (h : Hub J) (i : ℕ) : Hub J :=
  let s := h.subs i
  if s.settling = 0 then h
  else
    h.setSub i
      { s with inFlight := s.inFlight - 1, settling := s.settling - 1, chained := s.chained + 1 }

/-- The end of a send's chain, after the handlers: flush again if there is more. -/
def handled (h : Hub J) (i : ℕ) : Hub J :=
  if !(h.subs i).queue.isEmpty && !(h.subs i).closed then flushSubscriber T h i else h

/-- `_queuedSubscribers`: by priority, and in subscription order at each. -/
def queuedSubscribers (h : Hub J) : List ℕ :=
  (h.subscribers.insertionSort fun i j => (h.subs j).priority ≤ (h.subs i).priority).filter
    fun i => !(h.subs i).closed && !(h.subs i).queue.isEmpty

/-- `_drain`: begin its loop. -/
def drain (h : Hub J) : Hub J := { h with stack := .drain (queuedSubscribers h) :: h.stack }

/-- `flush()`, up to the loop of `_flushAll`. -/
def flush (h : Hub J) : Hub J :=
  { h with
    flushTimer := false, flushScheduled := false
    stack := .flushAll (queuedSubscribers h) :: h.stack }

/-- One pass of the loop of `_drainSubscriberFully`, up to its `await`. -/
def drainSubscriberFully (h : Hub J) (i : ℕ) : Hub J :=
  let s := h.subs i
  if s.closed || (s.queue.isEmpty && decide (s.inFlight ≤ 0)) then h
  else if 0 < s.inFlight then { h with waiting := i :: h.waiting }
  else flushSubscriber T { h with waiting := i :: h.waiting } i

/-- One pass of the innermost loop, `_drain`'s or `_flushAll`'s. -/
def turn (h : Hub J) : Hub J :=
  match h.stack with
  | .drain (i :: rest) :: stack =>
    let h := { h with stack := .drain rest :: stack }
    if 0 < (h.subs i).inFlight then h else flushSubscriber T h i
  | .flushAll (i :: rest) :: stack =>
    drainSubscriberFully T { h with stack := .flushAll rest :: stack } i
  | .drain [] :: stack | .flushAll [] :: stack => { h with stack }
  | _ => h

/-- The calls, callbacks, timers and promise jobs a run is made of. -/
inductive Event (J : Type) where
  | subscribe (topic : String) (options : SubOptions) (nextSubId : ℕ)
  | unsubscribe (id : String)
  | publish (topic : String) (message : Message J) (retained : Bool) (priority : Option ℚ)
    (admitted : Bool)
  | mutate (ref : ℕ) (value : Option J)
  | flush
  | close
  | timer
  | microtask
  | turn
  | sendReturned
  | sendThrew
  | settled (sub : ℕ)
  | chain (sub : ℕ)
  | handled
  | resume (sub : ℕ)

/-- Code outside the hub is running: nothing is on the stack, or a call of `send`
or of a handler is. -/
def outside (h : Hub J) : Bool :=
  match h.stack with
  | .drain _ :: _ | .flushAll _ :: _ => false
  | _ => true

/-- One event. Calls and mutations happen in code outside the hub; timers and
promise jobs wait for an empty stack. An event that cannot happen now is ignored. -/
def step (h : Hub J) : Event J → Hub J
  | .subscribe topic o n =>
    if outside h then (subscribe h topic o n).toOption.getD h else h
  | .unsubscribe id => if outside h then unsubscribe h id else h
  | .publish topic m r p a =>
    if outside h then ((publish h topic m r p a).toOption.map Prod.fst).getD h else h
  | .mutate ref value =>
    if outside h then { h with objects := Function.update h.objects ref value } else h
  | .flush => if outside h then flush h else h
  | .close => if outside h then close h else h
  | .timer =>
    if h.stack.isEmpty && h.flushTimer then
      drain { h with flushTimer := false, flushScheduled := false }
    else h
  | .microtask =>
    if h.stack.isEmpty && decide (0 < h.microtasks) then
      drain { h with microtasks := h.microtasks - 1, flushScheduled := false }
    else h
  | .turn => turn T h
  | .sendReturned =>
    match h.stack with
    | .send i bytes :: stack => sendReturned { h with stack } i bytes
    | _ => h
  | .sendThrew =>
    match h.stack with
    | .send i _ :: stack => sendThrew { h with stack } i
    | _ => h
  | .settled i => if h.stack.isEmpty then settled h i else h
  | .chain i =>
    if h.stack.isEmpty && decide (0 < (h.subs i).chained) then
      { h.setSub i { h.subs i with chained := (h.subs i).chained - 1 } with
        stack := [.handlers i] }
    else h
  | .handled =>
    match h.stack with
    | .handlers i :: stack => handled T { h with stack } i
    | _ => h
  | .resume i =>
    if h.stack.isEmpty && h.waiting.contains i then
      drainSubscriberFully T { h with waiting := h.waiting.erase i } i
    else h

/-! ## Only a flush touches the frames -/

omit [DecidableEq J]

@[simp] theorem setSub_frames (h : Hub J) (i : ℕ) (s : Sub J) : (h.setSub i s).frames = h.frames :=
  rfl

@[simp] theorem countDropped_frames (h : Hub J) (i n : ℕ) :
    (countDropped h i n).frames = h.frames := rfl

@[simp] theorem scheduleFlush_frames (h : Hub J) : (scheduleFlush h).frames = h.frames := by
  unfold scheduleFlush
  split_ifs <;> rfl

@[simp] theorem detach_frames (h : Hub J) (i : ℕ) : (detach h i).frames = h.frames := by
  simp only [detach]
  split <;> rfl

@[simp] theorem refuse_frames (h : Hub J) (i : ℕ) : (refuse h i).frames = h.frames := by
  unfold refuse
  cases (h.subs i).slowConsumer <;> simp

theorem makeRoom_frames (i : ℕ) : ∀ (turns : ℕ) (h : Hub J),
    (makeRoom i turns h).1.frames = h.frames := by
  intro turns
  induction turns with
  | zero =>
    intro h
    rw [makeRoom]
    split
    · rfl
    · exact refuse_frames h i
  | succ turns ih =>
    intro h
    rw [makeRoom]
    split_ifs
    · rfl
    · exact ih (dropQueued h i)
    · exact refuse_frames h i

@[simp] theorem enqueue_frames (h : Hub J) (i : ℕ) (m : Message J) (p : ℚ) :
    (enqueue h i m p).1.frames = h.frames := by
  have := makeRoom_frames i (h.subs i).queue.length h
  unfold enqueue
  simp only
  split <;> simpa using this

/-- A loop whose every pass leaves the frames alone does. -/
theorem foldl_frames {α β : Type} (frames : β → Frames J) (f : β → α → β)
    (hf : ∀ b a, frames (f b a) = frames b) (l : List α) :
    ∀ b, frames (l.foldl f b) = frames b := by
  induction l with
  | nil => exact fun b => rfl
  | cons a l ih => exact fun b => (ih (f b a)).trans (hf b a)

theorem offer_frames (m : Message J) (p : ℚ) (acc : Hub J × ℕ) (i : ℕ) :
    (offer m p acc i).1.frames = acc.1.frames := by
  unfold offer
  split
  · rfl
  · exact enqueue_frames _ _ _ _

theorem recordPublish_frames (h : Hub J) (topic : String) (m : Message J) (r : Bool) :
    (recordPublish h topic m r).frames = h.frames := by
  unfold recordPublish
  cases r <;> rfl

theorem publish_frames {h : Hub J} {topic : String} {m : Message J} {r : Bool} {p : Option ℚ}
    {a : Bool} {x : Hub J × ℕ} (hp : publish h topic m r p a = .ok x) : x.1.frames = h.frames := by
  have hrec := recordPublish_frames h topic m r
  unfold publish at hp
  split_ifs at hp
  · cases hp; rfl
  have hloop := foldl_frames (fun x : Hub J × ℕ => x.1.frames) _ (offer_frames m (p.getD 0))
    ((recordPublish h topic m r).topics topic) (recordPublish h topic m r, 0)
  simp only at hp
  split_ifs at hp <;> cases hp
  · exact hrec
  · exact hrec
  · exact (scheduleFlush_frames _).trans (hloop.trans hrec)
  · exact hloop.trans hrec

theorem subscribe_frames {h h' : Hub J} {topic : String} {o : SubOptions} {n : ℕ}
    (hs : subscribe h topic o n = .ok h') : h'.frames = h.frames := by
  unfold subscribe at hs
  split_ifs at hs
  simp only at hs
  split_ifs at hs
  · cases hs; rfl
  · cases hs
    rw [scheduleFlush_frames, replay]
    refine foldl_frames Hub.frames _ (fun h m => ?_) _ _
    split
    · rfl
    · exact enqueue_frames _ _ _ _

theorem unsubscribe_frames (h : Hub J) (id : String) : (unsubscribe h id).frames = h.frames := by
  unfold unsubscribe
  split
  · rfl
  · exact detach_frames h _

theorem close_frames (h : Hub J) : (close h).frames = h.frames := by
  unfold close
  split
  · rfl
  · exact foldl_frames Hub.frames detach detach_frames _ _

end

/-! ## What a flush sends -/

section
variable {J : Type} [DecidableEq J] (T : JsonText (List J))

/-- The frames after the batch `batch` is flushed to `i`. -/
def emit (objects : ℕ → Option J) (f : Frames J) (i : ℕ) (batch : List (Message J)) : Frames J :=
  if batch.isEmpty then f
  else
    match encodeBatch T objects f batch with
    | none => f
    | some (frame, f') =>
      { f' with sends := f'.sends ++ [⟨i, batch, contents objects batch, frame⟩] }

theorem flushSubscriber_frames (h : Hub J) (i : ℕ) :
    (flushSubscriber T h i).frames = emit T h.objects h.frames i (nextBatch h i) := by
  simp only [flushSubscriber, emit]
  split
  · rfl
  · cases encodeBatch T h.objects h.frames (nextBatch h i) <;> rfl

/-- `_drainSubscriberFully` flushes in this pass. -/
def drainsNow (h : Hub J) (i : ℕ) : Bool :=
  !(h.subs i).closed && !(h.subs i).queue.isEmpty && decide ((h.subs i).inFlight ≤ 0)

def flushed (h : Hub J) : Event J → Option ℕ
  | .turn =>
    match h.stack with
    | .drain (i :: _) :: _ => if 0 < (h.subs i).inFlight then none else some i
    | .flushAll (i :: _) :: _ => if drainsNow h i then some i else none
    | _ => none
  | .handled =>
    match h.stack with
    | .handlers i :: _ => if !(h.subs i).queue.isEmpty && !(h.subs i).closed then some i else none
    | _ => none
  | .resume i => if h.stack.isEmpty && h.waiting.contains i && drainsNow h i then some i else none
  | _ => none

/-- The frames after `i`, if any, is flushed. -/
def emitNext (h : Hub J) (i : Option ℕ) : Frames J :=
  i.elim h.frames fun i => emit T h.objects h.frames i (nextBatch h i)

theorem drainSubscriberFully_frames (h : Hub J) (i : ℕ) :
    (drainSubscriberFully T h i).frames =
      emitNext T h (if drainsNow h i then some i else none) := by
  simp only [drainSubscriberFully]
  split
  · have hno : drainsNow h i = false := by grind [drainsNow]
    rw [hno]
    rfl
  split
  · have hno : drainsNow h i = false := by grind [drainsNow]
    rw [hno]
    rfl
  · have hnow : drainsNow h i = true := by grind [drainsNow]
    rw [flushSubscriber_frames, hnow]
    rfl

theorem step_frames (h : Hub J) (e : Event J) :
    (step T h e).frames = emitNext T h (flushed h e) := by
  cases e with
  | subscribe topic o n =>
    show (if outside h then _ else h).frames = h.frames
    split
    · cases hs : subscribe h topic o n with
      | error e => rfl
      | ok h' => exact subscribe_frames hs
    · rfl
  | unsubscribe id =>
    show (if outside h then _ else h).frames = h.frames
    split
    · exact unsubscribe_frames h id
    · rfl
  | publish topic m r p a =>
    show (if outside h then _ else h).frames = h.frames
    split
    · cases hp : publish h topic m r p a with
      | error e => rfl
      | ok x => exact publish_frames hp
    · rfl
  | mutate ref value | flush =>
    show (if outside h then _ else h).frames = h.frames
    split <;> rfl
  | close =>
    show (if outside h then _ else h).frames = h.frames
    split
    · exact close_frames h
    · rfl
  | timer | microtask | sendReturned | sendThrew =>
    simp only [step, flushed]
    split <;> rfl
  | settled i =>
    simp only [step, flushed, settled]
    split_ifs <;> rfl
  | chain i =>
    simp only [step, flushed]
    split <;> rfl
  | turn =>
    simp only [step, flushed, turn]
    cases hs : h.stack with
    | nil => rfl
    | cons a stack =>
      cases a with
      | drain rest =>
        cases rest with
        | nil => rfl
        | cons i rest =>
          simp only
          split
          · rfl
          · exact flushSubscriber_frames T _ i
      | flushAll rest =>
        cases rest with
        | nil => rfl
        | cons i rest => exact drainSubscriberFully_frames T _ i
      | send i bytes | handlers i => rfl
  | handled =>
    simp only [step, flushed]
    split
    · simp only [handled]
      split
      · exact flushSubscriber_frames T _ _
      · rfl
    · rfl
  | resume i =>
    simp only [step, flushed]
    split
    · rename_i hw
      rw [drainSubscriberFully_frames, hw]
      rfl
    · rename_i hw
      rw [Bool.not_eq_true] at hw
      rw [hw]
      rfl

theorem encodeBatch_keeps {objects : ℕ → Option J} {f : Frames J} {batch : List (Message J)}
    {x : List UInt8 × Frames J} (h : encodeBatch T objects f batch = some x) :
    x.2.sends = f.sends ∧ x.2.codec = f.codec := by
  unfold encodeBatch at h
  split at h
  · unfold encodeJson at h
    split at h
    · cases h; exact ⟨rfl, rfl⟩
    · split at h
      · cases h
      · cases h; exact ⟨rfl, rfl⟩
  · obtain ⟨bytes, -, rfl⟩ := Option.map_eq_some_iff.mp h
    exact ⟨rfl, rfl⟩
  · cases h

theorem emit_codec (objects : ℕ → Option J) (f : Frames J) (i : ℕ) (batch : List (Message J)) :
    (emit T objects f i batch).codec = f.codec := by
  unfold emit
  split
  · rfl
  · cases henc : encodeBatch T objects f batch with
    | none => rfl
    | some x => exact (encodeBatch_keeps T henc).2

theorem step_codec (h : Hub J) (e : Event J) : (step T h e).frames.codec = h.frames.codec := by
  rw [step_frames]
  cases flushed h e with
  | none => rfl
  | some i => exact emit_codec T _ _ _ _

theorem encodeBatch_json {f : Frames J} (hf : f.codec = .json) (objects : ℕ → Option J)
    (batch : List (Message J)) : encodeBatch T objects f batch = encodeJson T objects f batch := by
  simp only [encodeBatch, hf]

theorem emit_sends (objects : ℕ → Option J) (f : Frames J) (i : ℕ) (batch : List (Message J)) :
    (emit T objects f i batch).sends = f.sends ∨ ∃ frame,
      (emit T objects f i batch).sends = f.sends ++ [⟨i, batch, contents objects batch, frame⟩] := by
  unfold emit
  split
  · exact Or.inl rfl
  · cases henc : encodeBatch T objects f batch with
    | none => exact Or.inl rfl
    | some x => exact Or.inr ⟨x.1, by rw [← (encodeBatch_keeps T henc).1]⟩

/-- The send an event makes, if it makes one, is of the batch at the front of its
subscriber's queue, with the content its messages have then. -/
theorem step_sends (h : Hub J) (e : Event J) :
    (step T h e).frames.sends = h.frames.sends ∨
      ∃ i ∈ flushed h e, ∃ frame, (step T h e).frames.sends =
        h.frames.sends ++ [⟨i, nextBatch h i, contents h.objects (nextBatch h i), frame⟩] := by
  rw [step_frames]
  cases flushed h e with
  | none => exact Or.inl rfl
  | some i =>
    rcases emit_sends T h.objects h.frames i (nextBatch h i) with hs | ⟨frame, hs⟩
    · exact Or.inl hs
    · exact Or.inr ⟨i, rfl, frame, hs⟩

/-! ## When the memo tells the truth -/

/-- The frame decodes to the content the batch's messages had when it was sent. -/
def Send.Faithful (s : Send J) : Prop :=
  ∃ values, s.contents = some values ∧
    ∃ d, decodeMessage T s.frame true = .ok d ∧ d.value = .json values

def MemoSent (f : Frames J) : Prop :=
  ∀ m ∈ f.memo, ∃ s ∈ f.sends, s.frame = m.frame ∧ s.contents = some f.encoded

/-- Flushing `batch` is sound. Under the memo's key it has the content of the
batch last encoded; under another key its text fits in a frame. -/
def Truthful (objects : ℕ → Option J) (f : Frames J) (batch : List (Message J)) : Prop :=
  batch ≠ [] →
    if (f.memo.filter (·.matches batch)).isSome then contents objects batch = some f.encoded
    else ∀ values ∈ contents objects batch, (T.stringify values).length < 2 ^ 32

instance (objects : ℕ → Option J) (f : Frames J) (batch : List (Message J)) :
    Decidable (Truthful T objects f batch) :=
  inferInstanceAs (Decidable (batch ≠ [] →
    if (f.memo.filter (·.matches batch)).isSome then contents objects batch = some f.encoded
    else ∀ values ∈ contents objects batch, (T.stringify values).length < 2 ^ 32))

/-- The event flushes no batch unsoundly. -/
def FlushesTruth (h : Hub J) (e : Event J) : Prop :=
  ∀ i ∈ flushed h e, Truthful T h.objects h.frames (nextBatch h i)

instance (h : Hub J) (e : Event J) : Decidable (FlushesTruth T h e) :=
  inferInstanceAs (Decidable (∀ i ∈ flushed h e, Truthful T h.objects h.frames (nextBatch h i)))

variable {T} {objects : ℕ → Option J} {f : Frames J}

theorem memoSent_emit (hf : MemoSent f) (hc : f.codec = .json) (i : ℕ)
    (batch : List (Message J)) : MemoSent (emit T objects f i batch) := by
  unfold emit
  split
  · exact hf
  · rw [encodeBatch_json T hc]
    unfold encodeJson
    cases hm : f.memo.filter (·.matches batch) with
    | some m =>
      intro m' hm'
      obtain ⟨s, hs, hframe, hcont⟩ := hf m' hm'
      exact ⟨s, List.mem_append_left _ hs, hframe, hcont⟩
    | none =>
      cases hc : contents objects batch with
      | none => exact hf
      | some values =>
        intro m' hm'
        cases hm'
        exact ⟨_, List.mem_append_right _ (List.mem_singleton.mpr rfl), rfl, rfl⟩

/-- Flushing keeps every frame faithful exactly when it is sound. -/
theorem emit_faithful_iff (hf : MemoSent f) (hc : f.codec = .json)
    (hall : ∀ s ∈ f.sends, s.Faithful T) (i : ℕ) (batch : List (Message J)) :
    (∀ s ∈ (emit T objects f i batch).sends, s.Faithful T) ↔ Truthful T objects f batch := by
  unfold emit Truthful
  cases batch with
  | nil => exact iff_of_true hall fun h => absurd rfl h
  | cons b bs =>
    have hsnoc : ∀ (sends : List (Send J)) (s : Send J), (∀ s ∈ sends, s.Faithful T) →
        ((∀ s' ∈ sends ++ [s], s'.Faithful T) ↔ s.Faithful T) := by
      intro sends s hsends
      simp only [List.mem_append, List.mem_singleton]
      exact ⟨fun h => h s (Or.inr rfl), fun h s' hs' => hs'.elim (hsends s') fun he => he ▸ h⟩
    simp only [List.isEmpty_cons, ne_eq, reduceCtorEq, not_false_eq_true, forall_const,
      Bool.false_eq_true, if_false]
    rw [encodeBatch_json T hc]
    unfold encodeJson
    cases hm : f.memo.filter (·.matches (b :: bs)) with
    | some m =>
      simp only [Option.isSome_some, if_true]
      rw [hsnoc _ _ hall]
      -- the memo's frame was sent before, with the content it was made from
      obtain ⟨s, hs, hframe, hcont⟩ := hf m (Option.mem_filter_iff.mp hm).1
      obtain ⟨v, hv, d, hd, hdv⟩ := hall s hs
      rw [hcont] at hv
      cases hv
      rw [hframe] at hd
      constructor
      · rintro ⟨v', hv', d', hd', hdv'⟩
        rw [hd] at hd'
        cases hd'
        rw [hdv] at hdv'
        cases hdv'
        exact hv'
      · exact fun hc => ⟨_, hc, d, hd, hdv⟩
    | none =>
      simp only [Option.isSome_none, Bool.false_eq_true, if_false]
      cases hc : contents objects (b :: bs) with
      | none => exact iff_of_true hall fun v hv => nomatch hv
      | some values =>
        simp only
        rw [hsnoc _ _ hall]
        have hdec := MessageCodec.decodeMessage_json_iff T values true
        simp only [Send.Faithful, Option.some.injEq, exists_eq_left', Option.mem_def, forall_eq']
        exact hdec

variable {o : Options} {h : Hub J}

theorem memoSent_step (hf : MemoSent h.frames) (hc : h.frames.codec = .json) (e : Event J) :
    MemoSent (step T h e).frames := by
  rw [step_frames]
  cases flushed h e with
  | none => exact hf
  | some i => exact memoSent_emit hf hc i _

theorem step_faithful_iff (hf : MemoSent h.frames) (hc : h.frames.codec = .json)
    (hall : ∀ s ∈ h.frames.sends, s.Faithful T)
    (e : Event J) :
    (∀ s ∈ (step T h e).frames.sends, s.Faithful T) ↔ FlushesTruth T h e := by
  rw [step_frames]
  unfold FlushesTruth
  cases flushed h e with
  | none => exact iff_of_true hall fun i hi => (Option.not_mem_none i hi).elim
  | some i => simpa [emitNext] using emit_faithful_iff hf hc hall i (nextBatch h i)

/-- **Every frame is its batch, exactly when the memo tells the truth.** In every
state of a run each frame handed to `send` decodes to the batch spliced for it, as
its messages were then, if and only if no flush of the run is unsound. -/
theorem frames_decode_iff {objects : ℕ → Option J} (hnew : new o objects = .ok h)
    (es : List (Event J)) :
    Always (step T) (fun h => ∀ s ∈ h.frames.sends, s.Faithful T) h es ↔
      Meets (step T) (FlushesTruth T) h es := by
  have hframes : h.frames = ⟨none, [], [], .json⟩ := by
    obtain ⟨n, -, hn⟩ := bind_eq_ok.mp hnew
    cases hn
    rfl
  refine always_iff_meets (Q := fun h => MemoSent h.frames ∧ h.frames.codec = .json)
    (fun s e hf => ⟨memoSent_step hf.1 hf.2 e, (step_codec T s e).trans hf.2⟩)
    (fun s e hf hall => step_faithful_iff hf.1 hf.2 hall e) ?_ ?_
  · rw [hframes]
    refine ⟨fun m hm => ?_, rfl⟩
    cases hm
  · rw [hframes]
    intro s hs
    cases hs

end

open MessageCodec (digitText)

/-- A second publish of the same messages is sent under the memo's frame. -/
theorem frames_decode_repeat : ∃ h, new {} (fun _ => none) = .ok h ∧
    Always (step digitText) (fun h => ∀ s ∈ h.frames.sends, s.Faithful digitText) h
      [.subscribe "t" {} 1, .subscribe "t" {} 2, .publish "t" (.prim 7) false none true,
        .microtask, .turn, .sendReturned, .turn] :=
  ⟨_, rfl, (frames_decode_iff (o := {}) rfl _).mpr (by decide +kernel)⟩

/-- Two rounds of three messages to one subscriber, the middle one differing: the
second round is sent under the first one's frame. -/
theorem memo_substitutes : ∃ h, new {} (fun _ => none) = .ok h ∧
    let publish m : Event (Fin 10) := .publish "t" (.prim m) false none true
    let round := [.microtask, .turn, .sendReturned, .turn, .settled 0, .chain 0, .handled]
    let h' := run (step digitText) h
      ([.subscribe "t" {} 1, publish 1, publish 2, publish 1] ++ round ++
        [publish 1, publish 3, publish 1] ++ round)
    h'.frames.sends.map (·.contents) = [some [1, 2, 1], some [1, 3, 1]] ∧
      ¬ ∀ s ∈ h'.frames.sends, s.Faithful digitText := by
  refine ⟨_, rfl, by decide +kernel, fun hall => ?_⟩
  -- the second send carries the first one's frame
  obtain ⟨v, hv, d, hd, hdv⟩ := hall
    ⟨0, [.prim 1, .prim 3, .prim 1], some [1, 3, 1],
      frameEncodedJson (digitText.stringify [1, 2, 1])⟩ (by decide +kernel)
  obtain ⟨d', hd', hdv'⟩ :=
    (MessageCodec.decodeMessage_json_iff digitText [1, 2, 1] true).mpr (by decide)
  cases hv
  rw [hd'] at hd
  cases hd
  rw [hdv'] at hdv
  exact absurd (Value.json.inj hdv) (by decide)

end PerformanceHelpers.RealtimeHub
