import Mathlib
import PerformanceHelpers.Run
import PerformanceHelpers.TimerChain

/- `PowerWebSocketClient` (`src/helpers/powerWebSocketClient.js`): the connection and its timers.

   Everything that reaches the client from outside is a turn of the event loop: an event of a socket,
   a timeout, a conversion of an inbound frame that is done. In the middle of a turn the client calls
   the handlers of its owner, and a handler may call the client again. What is left to do when the
   handler returns is a frame (`Frame`) on a stack, so that a turn is over when the stack is empty, and
   the owner's calls come at any time.

   A socket belongs to the generation it was opened in, and is listened to while that is the
   generation of the client and the client holds it. Sends, the codec and the counters are left out
   except for what they make of the pauses. -/
namespace PerformanceHelpers.PowerWebSocketClient

/-- `CLOSING` is never assigned. -/
inductive ReadyState where
  | connecting
  | opened
  | closed
  deriving DecidableEq

/-- The options that decide what is opened, polled and retried. `streams` is the tier of
`WebSocketStream`, whose sockets may come without a reader or a writer; `none` is `Infinity`. -/
structure Config where
  streams : Bool
  writable : Bool
  readable : Bool
  connectTimeoutMs : ℚ
  heartbeatIntervalMs : ℚ
  heartbeatTimeoutMs : ℚ
  highWaterMark : ℚ
  lowWaterMark : ℚ
  autoReconnect : Bool
  maxReconnectAttempts : Option ℕ
  maxReconnectElapsedMs : Option ℚ
  nonRetryableCloseCodes : List ℚ
  reconnectOnHeartbeatTimeout : Bool
  deriving DecidableEq

/-- A socket that was constructed: the generation and the attempt (the call of `_open`) it belongs to,
and whether it was closed, by the peer or by the client. -/
structure Socket where
  generation : ℕ
  attempt : ℕ
  closed : Bool
  deriving DecidableEq

inductive Job where
  | frame
  | finishClose (code : Option ℚ)
  deriving DecidableEq

/-- What is left to do when a handler of the owner returns: after `open`; after an `error`, to settle
the attempt; after the `resume` in `_handleClose`; after `close`; after the `error` of a failed read;
after the `error` of a socket that cannot be closed; after the `error` of an oversized frame; after
the `error` of a ping; after the `pause` or `resume` of a poll. -/
inductive Frame where
  | opened (attempt socket : ℕ)
  | settle (attempt : ℕ)
  | closing (attempt : Option ℕ) (code : Option ℚ)
  | finishing (attempt : Option ℕ) (code : Option ℚ)
  | readFailed
  | closingByUser
  | received (blob : Bool)
  | heartbeat
  | poll
  deriving DecidableEq

/-- The fields of the client, with every socket that was constructed, the attempts that have settled
and the frames of the turn that is under way. `inbound` is `none` while `_inboundChain` is `null`. -/
structure Client where
  config : Config
  state : ReadyState
  sockets : List Socket
  socket : Option ℕ
  connectionGeneration : ℕ
  writer : Bool
  streamReader : Option ℕ
  inbound : Option (List Job)
  closedByUser : Bool
  reconnectAttempts : ℕ
  reconnectStartedAt : Option ℚ
  paused : Bool
  connectTimer : Timer
  pollTimer : Timer
  heartbeatTimer : Timer
  heartbeatDeadline : Timer
  reconnectTimer : Timer
  timeouts : ℕ
  settled : List Bool
  stack : List Frame
  deriving DecidableEq

def new (config : Config) : Client :=
  ⟨config, .closed, [], none, 0, false, none, none, false, 0, none, false, .idle, .idle, .idle, .idle, .idle, 0, [], []⟩

/-- A handler of the owner is called; the frame is what is left to do then. -/
def emit (s : Client) (frame : Frame) : Client := { s with stack := frame :: s.stack }

def Listens (s : Client) (k : ℕ) (socket : Socket) : Prop :=
  socket.generation = s.connectionGeneration ∧ s.socket = some k

instance (s : Client) (k : ℕ) (socket : Socket) : Decidable (Listens s k socket) :=
  inferInstanceAs (Decidable (_ ∧ _))

/-- `done`: an attempt settles once. -/
def done (s : Client) (attempt : ℕ) : Client :=
  if s.settled[attempt]? = some true then s
  else { s with settled := s.settled.set attempt true, connectTimer := s.connectTimer.clear }

def settle (s : Client) : Option ℕ → Client
  | none => s
  | some attempt => done s attempt

def closeSocket (s : Client) (refused : Bool) : Client :=
  match s.socket with
  | none => s
  | some k =>
    if refused = true then s
    else { s with sockets := s.sockets.modify k fun socket => { socket with closed := true } }

/-! ## The timers -/

def schedulePoll (s : Client) : Client :=
  if s.writer = true then s
  else if s.state ≠ .opened then s
  else { s with pollTimer := s.pollTimer.set s.timeouts, timeouts := s.timeouts + 1 }

def scheduleHeartbeat (s : Client) : Client :=
  if s.config.heartbeatIntervalMs ≤ 0 then s
  else { s with heartbeatTimer := s.heartbeatTimer.set s.timeouts, timeouts := s.timeouts + 1 }

def clearHeartbeat (s : Client) : Client :=
  { s with heartbeatTimer := s.heartbeatTimer.clear, heartbeatDeadline := s.heartbeatDeadline.clear }

def stopPoll (s : Client) : Client := { s with pollTimer := s.pollTimer.clear }

def clearTimers (s : Client) : Client :=
  let s := stopPoll (clearHeartbeat { s with connectTimer := s.connectTimer.clear })
  { s with reconnectTimer := s.reconnectTimer.clear }

def scheduleReconnect (s : Client) (now : ℚ) : Client :=
  if s.config.autoReconnect = false ∨ s.closedByUser = true then s
  else if ∃ most ∈ s.config.maxReconnectAttempts, most ≤ s.reconnectAttempts then s
  else if ∃ most ∈ s.config.maxReconnectElapsedMs, ∃ started ∈ s.reconnectStartedAt, most ≤ now - started then s
  else
    { s with
      reconnectAttempts := s.reconnectAttempts + 1
      reconnectTimer := s.reconnectTimer.set s.timeouts
      timeouts := s.timeouts + 1 }

/-! ## Opening and closing -/

/-- `_open`; `throws` when the constructor does. -/
def openSocket (s : Client) (throws : Bool) : Client :=
  let attempt := s.settled.length
  let s := { s with
    settled := s.settled ++ [false]
    state := .connecting
    connectionGeneration := s.connectionGeneration + 1 }
  if throws = true then emit { s with state := .closed } (.settle attempt)
  else
    let s := { s with
      sockets := s.sockets ++ [⟨s.connectionGeneration, attempt, false⟩]
      socket := some s.sockets.length
      writer := if s.config.streams = true then s.config.writable else s.writer }
    if 0 < s.config.connectTimeoutMs then { s with connectTimer := s.connectTimer.set attempt } else s

def connect (s : Client) (throws : Bool) : Client :=
  if s.state = .connecting ∨ s.state = .opened then s
  else openSocket { s with closedByUser := false } throws

/-- The end of `close`. -/
def closeRest (s : Client) : Client := { s with paused := false, state := .closed }

/-- `close` until it closes the socket. -/
def closeBegin (s : Client) : Client :=
  { clearTimers { s with closedByUser := true, connectionGeneration := s.connectionGeneration + 1 } with
    streamReader := none
    writer := false }

/-- `close`; `refused` when the platform does not take the code. -/
def close (s : Client) (refused : Bool) : Client :=
  let s := closeSocket (closeBegin s) refused
  if s.socket.isSome = true ∧ refused = true then emit s .closingByUser else closeRest s

def startStreamPump (s : Client) (k : ℕ) : Client :=
  match s.sockets[k]? with
  | none => s
  | some socket =>
    if Listens s k socket ∧ s.config.readable = true then { s with streamReader := some k } else s

/-- What is left after `_handleOpen` has called the `open` handler. -/
def handleOpenRest (s : Client) (attempt k : ℕ) : Client :=
  let s := done s attempt
  if s.config.streams = true then startStreamPump s k else s

def handleOpen (s : Client) (attempt k : ℕ) : Client :=
  if s.state = .opened then handleOpenRest s attempt k
  else
    let s := { s with state := .opened, reconnectAttempts := 0, reconnectStartedAt := none }
    emit (scheduleHeartbeat (schedulePoll s)) (.opened attempt k)

/-- `_finishClose` until the `close` handler is called. -/
def finishClose (s : Client) (attempt : Option ℕ) (code : Option ℚ) : Client :=
  emit s (.finishing attempt code)

def finishCloseRest (s : Client) (attempt : Option ℕ) (code : Option ℚ) (now : ℚ) : Client :=
  let s :=
    if s.closedByUser = true then s
    else if ∃ c ∈ code, c ∈ s.config.nonRetryableCloseCodes then s
    else scheduleReconnect { s with reconnectStartedAt := some (s.reconnectStartedAt.getD now) } now
  settle s attempt

def emitCloseAndReconnect (s : Client) (attempt : Option ℕ) (code : Option ℚ) : Client :=
  match s.inbound with
  | some jobs => settle { s with inbound := some (jobs ++ [.finishClose code]) } attempt
  | none => finishClose s attempt code

def handleCloseRest (s : Client) (attempt : Option ℕ) (code : Option ℚ) : Client :=
  emitCloseAndReconnect { s with writer := false, streamReader := none, state := .closed } attempt code

/-- `_handleClose`; a producer that is paused is told to resume in the middle of it. -/
def handleClose (s : Client) (attempt : Option ℕ) (code : Option ℚ) : Client :=
  let s := stopPoll (clearHeartbeat s)
  if s.paused = true then emit { s with paused := false } (.closing attempt code)
  else handleCloseRest s attempt code

/-- `_handleMessage` after the report of an oversized frame. -/
def handleMessageRest (s : Client) (blob : Bool) : Client :=
  if blob = true ∨ s.inbound.isSome = true then { s with inbound := some (s.inbound.getD [] ++ [.frame]) }
  else s

def heartbeatRest (s : Client) : Client := if s.state = .opened then scheduleHeartbeat s else s

/-! ## The turns -/

/-- `_tickWatermark`: what `paused` becomes. -/
def watermark (s : Client) (buffered : ℚ) : Bool :=
  if s.state ≠ .opened then s.paused
  else if 0 < s.config.highWaterMark ∧ s.config.highWaterMark < buffered then true
  else if s.paused = true ∧ buffered ≤ s.config.lowWaterMark then false
  else s.paused

/-- A turn of the event loop: an event of the `k`-th socket, a timeout that fires with what the
platform answers, or the head of the inbound chain that is done. -/
inductive Turn where
  | socketOpen (k : ℕ)
  | socketError (k : ℕ)
  | socketClose (k : ℕ) (code : Option ℚ)
  | socketMessage (k : ℕ) (blob oversize : Bool)
  | socketPong (k : ℕ)
  | readFails (k : ℕ)
  | inbound
  | connectTimeout (id : ℕ) (refused : Bool)
  | reconnect (id : ℕ) (throws : Bool)
  | heartbeat (id : ℕ) (canPing throws : Bool)
  | heartbeatTimeout (id : ℕ) (refused : Bool)
  | poll (id : ℕ) (buffered : ℚ)
  deriving DecidableEq

def peerCloses (s : Client) (k : ℕ) : Client :=
  { s with sockets := s.sockets.modify k fun socket => { socket with closed := true } }

def socketEvent (s : Client) (k : ℕ) (listener : Client → Socket → Client) : Client :=
  match s.sockets[k]? with
  | none => s
  | some socket => if Listens s k socket then listener s socket else s

def socketClose (s : Client) (k : ℕ) (code : Option ℚ) : Client :=
  let s := peerCloses s k
  if s.config.streams = true then s
  else socketEvent s k fun s socket => handleClose s (some socket.attempt) code

def readFails (s : Client) (k : ℕ) : Client :=
  socketEvent (peerCloses s k) k fun s _ =>
    if s.streamReader = some k ∧ s.state = .opened ∧ s.closedByUser = false then emit s .readFailed else s

def inboundDone (s : Client) : Client :=
  match s.inbound with
  | some (job :: jobs) =>
    match job with
    | .frame => { s with inbound := some jobs }
    | .finishClose code => finishClose { s with inbound := some jobs } none code
  | _ => s

def connectTimeout (s : Client) (id : ℕ) (refused : Bool) : Client :=
  if id ∉ s.connectTimer.running then s
  else
    let s := { s with connectTimer := s.connectTimer.fire id }
    if s.state = .opened then s else closeSocket { done s id with state := .closed } refused

def reconnect (s : Client) (id : ℕ) (throws : Bool) : Client :=
  if id ∉ s.reconnectTimer.running then s
  else
    let s := { s with reconnectTimer := s.reconnectTimer.fire id }
    if s.closedByUser = true then s else openSocket s throws

def heartbeat (s : Client) (id : ℕ) (canPing throws : Bool) : Client :=
  if id ∉ s.heartbeatTimer.running then s
  else
    let s := { s with heartbeatTimer := s.heartbeatTimer.fire id }
    if s.socket.isSome = true ∧ canPing = true then
      if throws = true then emit s .heartbeat
      else if 0 < s.config.heartbeatTimeoutMs ∧ s.heartbeatDeadline.handle = none then
        heartbeatRest { s with
          heartbeatDeadline := s.heartbeatDeadline.set s.timeouts, timeouts := s.timeouts + 1 }
      else heartbeatRest s
    else heartbeatRest s

def heartbeatTimeout (s : Client) (id : ℕ) (refused : Bool) : Client :=
  if id ∉ s.heartbeatDeadline.running then s
  else
    let s := clearHeartbeat { s with heartbeatDeadline := s.heartbeatDeadline.fire id }
    if s.config.reconnectOnHeartbeatTimeout = true ∧ s.closedByUser = false then closeSocket s refused else s

def poll (s : Client) (id : ℕ) (buffered : ℚ) : Client :=
  if id ∉ s.pollTimer.running then s
  else
    let s := { s with pollTimer := s.pollTimer.fire id }
    if watermark s buffered = s.paused then schedulePoll s
    else emit { s with paused := watermark s buffered } .poll

def turn (s : Client) : Turn → Client
  | .socketOpen k => socketEvent s k fun s socket => handleOpen s socket.attempt k
  | .socketError k => socketEvent s k fun s socket => emit s (.settle socket.attempt)
  | .socketClose k code => socketClose s k code
  | .socketMessage k blob oversize => socketEvent s k fun s _ =>
      if oversize = true then emit s (.received blob) else handleMessageRest s blob
  | .socketPong k => socketEvent s k fun s _ => { s with heartbeatDeadline := s.heartbeatDeadline.clear }
  | .readFails k => readFails s k
  | .inbound => inboundDone s
  | .connectTimeout id refused => connectTimeout s id refused
  | .reconnect id throws => reconnect s id throws
  | .heartbeat id canPing throws => heartbeat s id canPing throws
  | .heartbeatTimeout id refused => heartbeatTimeout s id refused
  | .poll id buffered => poll s id buffered

/-- `_transmit`, of which only the pause is kept. -/
def transmit (s : Client) (buffered : ℚ) (dropOnBackpressure : Bool) : Client :=
  if s.state ≠ .opened ∨ s.socket = none ∨ s.writer = true then s
  else if s.config.highWaterMark < buffered ∧ dropOnBackpressure = false then { s with paused := true }
  else s

/-- What is left to do of a frame. -/
def resume (s : Client) (now : ℚ) : Frame → Client
  | .opened attempt k => handleOpenRest s attempt k
  | .settle attempt => done s attempt
  | .closing attempt code => handleCloseRest s attempt code
  | .finishing attempt code => finishCloseRest s attempt code now
  | .readFailed =>
    handleClose { s with connectionGeneration := s.connectionGeneration + 1 } none (some 1006)
  | .closingByUser => closeRest s
  | .received blob => handleMessageRest s blob
  | .heartbeat => heartbeatRest s
  | .poll => schedulePoll s

/-- The handler that was called last returns. -/
def handlerReturns (s : Client) (now : ℚ) : Client :=
  match s.stack with
  | [] => s
  | frame :: outer => resume { s with stack := outer } now frame

inductive Event where
  | connect (throws : Bool)
  | close (refused : Bool)
  | transmit (buffered : ℚ) (dropOnBackpressure : Bool)
  | handlerReturns (now : ℚ)
  | turn (t : Turn)
  deriving DecidableEq

def step (s : Client) : Event → Client
  | .connect throws => connect s throws
  | .close refused => close s refused
  | .transmit buffered dropOnBackpressure => transmit s buffered dropOnBackpressure
  | .handlerReturns now => handlerReturns s now
  | .turn t => if s.stack = [] then turn s t else s

/-! ## One connection -/

def HeldClosed (s : Client) : Prop := ∀ k ∈ s.socket, ∀ socket ∈ s.sockets[k]?, socket.closed = true

instance (s : Client) : Decidable (HeldClosed s) := inferInstanceAs (Decidable (∀ k ∈ s.socket, _))

/-- The frames of a close, which say `CLOSED` when they go on. -/
def Frame.closes : Frame → Bool
  | .closing _ _ | .closingByUser | .readFailed => true
  | _ => false

/-- What keeps the client at one connection. The reconnect timer finds it `CLOSED` when it fires, if
the owner has not closed it: nothing was opened since the timeout was set. A handler that is called in
the middle of a close does not leave it with a socket that is not closed. And the platform does not
refuse to close the socket of an attempt that took too long. -/
def Orderly (s : Client) : Event → Prop
  | .turn (.reconnect id _) => id ∈ s.reconnectTimer.running → s.closedByUser = false → s.state = .closed
  | .turn (.connectTimeout id refused) =>
    id ∈ s.connectTimer.running → s.state ≠ .opened → refused = true → HeldClosed s
  | .handlerReturns _ => ∀ frame ∈ s.stack.head?, frame.closes = true → HeldClosed s
  | _ => True

instance (s : Client) : ∀ e, Decidable (Orderly s e)
  | .turn (.reconnect id _) => inferInstanceAs (Decidable (id ∈ s.reconnectTimer.running → _))
  | .turn (.connectTimeout id _) => inferInstanceAs (Decidable (id ∈ s.connectTimer.running → _))
  | .handlerReturns _ => inferInstanceAs (Decidable (∀ frame ∈ s.stack.head?, _))
  | .turn (.socketOpen _) | .turn (.socketError _) | .turn (.socketClose _ _) | .turn (.socketMessage _ _ _)
  | .turn (.socketPong _) | .turn (.readFails _) | .turn .inbound | .turn (.heartbeat _ _ _)
  | .turn (.heartbeatTimeout _ _) | .turn (.poll _ _) | .connect _ | .close _ | .transmit _ _ =>
    inferInstanceAs (Decidable True)

/-- At most one socket that has not been closed, and at most one chain of heartbeats and one of polls
(the callback of the timeout included, while it runs). -/
structure AtMostOne (s : Client) : Prop where
  socket : (s.sockets.filter fun socket => !socket.closed).length ≤ 1
  heartbeat : s.heartbeatTimer.running.length + s.stack.count .heartbeat ≤ 1
  poll : s.pollTimer.running.length + s.stack.count .poll ≤ 1

/-- A socket is only constructed while the client is `CLOSED`. -/
def OpensClosed (s : Client) (e : Event) : Prop :=
  s.sockets.length < (step s e).sockets.length → s.state = .closed

end PerformanceHelpers.PowerWebSocketClient
