import PerformanceHelpers.Run

/- `PowerSocketAdapter` (`src/helpers/powerSocketAdapter.js`): messages, stream writes,
   `close`, `drain` and `dispose`.

   The adapter runs its owner's handlers and the socket's `close` in the middle of its
   own methods, and they may call it again. What a method has still to do is a list of
   operations (`todo`); a call out of the adapter is one of them, and while it is the
   first, whoever was called may call the adapter and may return. Timers fire and promises
   settle when there is nothing left to do.

   A handler that returned a promise and a write that was taken are counted until they
   settle. Frames, the rate limiter's arithmetic, the heartbeat and the counters of
   `stats()` but `drained` are left out, and so is the event `open`. `closes` is not the
   code's: it counts the calls of the socket's `close`, and a close of the peer that comes
   before any. A `Settlement` says what was pending when a drain was resolved, and how
   often the socket had been closed by then. -/
namespace PerformanceHelpers.PowerSocketAdapter

/-- `READY_STATE`. -/
inductive ReadyState where
  | connecting
  | opened
  | closing
  | closed
  deriving DecidableEq, Repr

/-- The options that are read: whether the socket is a `WebSocketStream`, whether a
message handler is given, whether the idle timeout and the drain timeout are more than 0,
and whether a message over the rate limit closes the socket. -/
structure Config where
  stream : Bool := false
  onMessage : Bool := true
  idleTimeout : Bool := false
  drainTimeout : Bool := true
  closeOnLimit : Bool := false
  deriving DecidableEq

/-- A call out of the adapter: of `onMessage`, of `onError`, of `onClose` or
`onRateLimited`, and of the socket's `close`. -/
inductive Callee where
  | onMessage
  | onError
  | handler
  | socketClose
  deriving DecidableEq, Repr

/-- What a method has still to do. `finish d ok` is the `finish` of a drain, whose answer
`none` is `this._pending === 0` when it is called; `close true` is the `close` in it. The
`Rest` of a method is what comes after its call out. -/
inductive Op where
  | out (callee : Callee)
  | invoke (error : Bool)
  | handleRest (limited : Bool)
  | flush
  | finishDrain
  | finish (d : ℕ) (ok : Option Bool)
  | close (draining : Bool)
  | closeRest
  | idleRest
  | resolve (d : ℕ) (ok : Bool)
  | drainRest (d : ℕ)
  | assign (d : ℕ)
  deriving DecidableEq, Repr

/-- How a drain was resolved: with what, with how many handlers and writes pending, and
with the socket closed how often. -/
structure Settlement where
  ok : Bool
  busy : ℕ
  closes : ℕ
  deriving DecidableEq, Repr

/-- A promise of `drain`, and how often its `finish` has counted it. -/
structure Drain where
  finishes : ℕ := 0
  settled : Option Settlement := none
  deriving DecidableEq, Repr

structure Adapter extends Config where
  state : ReadyState
  draining : Bool := false
  disposed : Bool := false
  pending : ℕ := 0
  drainWaiters : List ℕ := []
  drainPromise : Option ℕ := none
  drainTimer : Option ℕ := none
  idleTimer : Bool := false
  drained : ℕ := 0
  handlers : ℕ := 0
  writes : ℕ := 0
  closes : ℕ := 0
  drains : List Drain := []
  todo : List Op := []
  deriving DecidableEq

namespace Adapter

variable (s : Adapter)

def push (ops : List Op) : Adapter := { s with todo := ops ++ s.todo }

def busy : ℕ := s.handlers + s.writes + s.todo.count (.out .onMessage)

def clearTimers : Adapter := { s with idleTimer := false, drainTimer := none }

def resetIdleTimer : Adapter := { s with idleTimer := s.idleTimeout && !s.disposed }

/-- `_emitError` and `_invoke`; there are no handlers after `dispose`. -/
def invoke (error : Bool) : Adapter :=
  if s.disposed then s else s.push [.out (if error then .onError else .handler)]

def flushDrainWaiters : Adapter :=
  if 0 < s.pending ∨ s.drainWaiters = [] then s
  else { s with drainWaiters := [] }.push (s.drainWaiters.map fun d => .finish d (some true))

def finishDrain : Adapter :=
  { s with drainTimer := none, drainWaiters := [] }.push (s.drainWaiters.map fun d => .finish d none)

/-- `finish` of `drain`. -/
def finish (d : ℕ) (ok : Option Bool) : Adapter :=
  { s with
    drained := s.drained + 1
    drains := s.drains.modify d fun r => { r with finishes := r.finishes + 1 } }.push
      [.finishDrain, .close true, .resolve d (ok.getD (decide (s.pending = 0)))]

/-- The promise of a drain is resolved, once. -/
def resolve (d : ℕ) (ok : Bool) : Adapter :=
  { s with drains := s.drains.modify d fun r =>
      { r with settled := some (r.settled.getD ⟨ok, s.busy, s.closes⟩) } }

/-- `close`. A stream is closed whatever the state. -/
def close : Adapter :=
  if s.disposed then s
  else if s.stream = true ∨ s.state ≠ .closed ∧ s.state ≠ .closing then
    { s.clearTimers with closes := s.closes + 1 }.push [.out .socketClose, .closeRest]
  else s.clearTimers.push [.closeRest]

/-- The rest of `close`. -/
def closeRest : Adapter := { s with state := .closed }.push [.finishDrain]

def drain : Adapter :=
  if s.draining = true ∧ s.drainPromise.isSome = true then s
  else
    ({ s with
        draining := true
        drains := s.drains ++ [({} : Drain)]
        drainWaiters := s.drainWaiters ++ [s.drains.length] }.push
          [.drainRest s.drains.length]).flushDrainWaiters

def drainRest (d : ℕ) : Adapter :=
  if s.pending = 0 then s.push [.finish d (some true), .assign d]
  else { s with
    drainTimer := if s.drainTimeout then some d else s.drainTimer
    drainPromise := some d }

def dispose : Adapter :=
  if s.disposed then s
  else { s.clearTimers with disposed := true, state := .closed, drainWaiters := [] }

/-- `_handleMessage` after the report of an oversized frame. -/
def handleRest (limited : Bool) : Adapter :=
  if s.draining then s
  else if limited then s.push (.invoke false :: if s.closeOnLimit then [.close false] else [])
  else if s.onMessage = true ∧ s.disposed = false then
    { s with pending := s.pending + 1 }.push [.out .onMessage]
  else s

def handleMessage (limited oversize : Bool) : Adapter :=
  if oversize then s.resetIdleTimer.push [.invoke true, .handleRest limited]
  else s.resetIdleTimer.handleRest limited

def handleClose : Adapter :=
  if s.state = .closed then s
  else { s.clearTimers with
    state := .closed, closes := if s.closes = 0 then 1 else s.closes }.push [.finishDrain, .invoke false]

/-- The callback of the idle timer after the socket's `close`. -/
def idleRest : Adapter := { s with state := .closed }.push [.finishDrain, .invoke false]

def perform : Op → Adapter
  | .out callee => s.push [.out callee]
  | .invoke error => s.invoke error
  | .handleRest limited => s.handleRest limited
  | .flush => s.flushDrainWaiters
  | .finishDrain => s.finishDrain
  | .finish d ok => s.finish d ok
  | .close _ => s.close
  | .closeRest => s.closeRest
  | .idleRest => s.idleRest
  | .resolve d ok => s.resolve d ok
  | .drainRest d => s.drainRest d
  | .assign d => { s with drainPromise := some d }

end Adapter

/-- What comes of a stream's write, or of `socket.send`. -/
inductive Write where
  | refused
  | taken
  | throws
  deriving DecidableEq, Repr

inductive Answer where
  | value
  | promise
  | throws
  deriving DecidableEq, Repr

/-- A call of the adapter, by its owner or by the socket. -/
inductive Call where
  | message (limited oversize : Bool)
  | send (w : Write)
  | close
  | drain
  | dispose
  | remoteClose
  deriving DecidableEq, Repr

inductive Turn where
  | handlerSettles (rejects : Bool)
  | writeSettles (rejects : Bool)
  | drainTimeout
  | idleTimeout
  deriving DecidableEq, Repr

namespace Adapter

variable (s : Adapter)

/-- `send` and `_writeStream`. A write that throws has been counted. -/
def send (w : Write) : Adapter :=
  if s.disposed = true ∨ s.draining = true ∨ s.state ≠ .opened then s
  else
    match w with
    | .refused => s
    | .taken => if s.stream then { s with pending := s.pending + 1, writes := s.writes + 1 } else s
    | .throws =>
      if s.stream then { s with pending := s.pending + 1 }.push [.invoke true] else s.push [.invoke true]

def call : Call → Adapter
  | .message limited oversize => s.handleMessage limited oversize
  | .send w => s.send w
  | .close => s.push [.close false]
  | .drain => s.drain
  | .dispose => s.dispose
  | .remoteClose => s.handleClose

def settled (rejects : Bool) : List Op := .flush :: if rejects then [.invoke true] else []

def turn : Turn → Adapter
  | .handlerSettles rejects =>
    if s.handlers = 0 then s
    else { s with handlers := s.handlers - 1, pending := s.pending - 1 }.push (settled rejects)
  | .writeSettles rejects =>
    if s.writes = 0 then s
    else { s with writes := s.writes - 1, pending := s.pending - 1 }.push (settled rejects)
  | .drainTimeout =>
    match s.drainTimer with
    | none => s
    | some d => { s with drainTimer := none }.push [.finish d (some false)]
  | .idleTimeout =>
    if s.idleTimer then
      { s.clearTimers with closes := s.closes + 1 }.push [.out .socketClose, .idleRest]
    else s

def answered (callee : Callee) (a : Answer) : Adapter :=
  match callee, a with
  | .onMessage, .value => { s with pending := s.pending - 1 }.push (settled false)
  | .onMessage, .promise => { s with handlers := s.handlers + 1 }
  | .onMessage, .throws => { s with pending := s.pending - 1 }.push (settled true)
  | .socketClose, .throws | .handler, .throws => s.push [.invoke true]
  | _, _ => s

end Adapter

/-- The adapter does its next operation, a call out returns, the adapter is called, or the
event loop takes a turn. -/
inductive Event where
  | tick
  | returns (a : Answer)
  | call (c : Call)
  | turn (t : Turn)
  deriving DecidableEq, Repr

/-- Whoever the adapter called may call it, or nobody is called at all. -/
def Outside (s : Adapter) : Prop := ∀ op ∈ s.todo.head?, ∃ callee, op = .out callee

instance : DecidablePred Outside := fun s =>
  match h : s.todo.head? with
  | none => isTrue (by simp [Outside, h])
  | some (.out callee) => isTrue (by simp [Outside, h])
  | some (.invoke _) | some (.handleRest _) | some .flush | some .finishDrain | some (.finish _ _)
  | some (.close _) | some .closeRest | some .idleRest | some (.resolve _ _) | some (.drainRest _)
  | some (.assign _) => isFalse (by simp [Outside, h])

def step (s : Adapter) : Event → Adapter
  | .tick =>
    match s.todo with
    | [] => s
    | op :: rest => { s with todo := rest }.perform op
  | .returns a =>
    match s.todo with
    | .out callee :: rest => { s with todo := rest }.answered callee a
    | _ => s
  | .call c => if Outside s then s.call c else s
  | .turn t => if s.todo = [] then s.turn t else s

/-- An adapter as its constructor leaves it. A stream is `OPEN` from the start. -/
def new (config : Config) (state : ReadyState) : Adapter :=
  { toConfig := config
    state := if config.stream then .opened else state
    idleTimer := config.idleTimeout }

end PerformanceHelpers.PowerSocketAdapter
