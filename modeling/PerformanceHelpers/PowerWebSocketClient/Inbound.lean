import PerformanceHelpers.PowerWebSocketClient.Quality

/- The inbound frames of a client: `_handleMessage`, `_enqueueInboundFrame`,
   `_convertAndDeliver`, `_deliverFrame` and the `close` that waits behind them.

   The client keeps the kinds of the links of its inbound chain; here they carry their
   frames. A frame or a close that reaches the client may have to wait for a handler of the
   owner (`held`): after the `error` of an oversized frame, the `error` of a failed read, or
   the `resume` in `_handleClose`. Nothing is left to do after a `message` or the `error` of
   a frame that cannot be read, so that these call no handler in the model. -/
namespace PerformanceHelpers.PowerWebSocketClient

/-- What becomes of a frame's data: whether it is a `Blob` (`isConvertibleBlob`), what
`arrayBuffer` comes to, and what `decodeMessage` answers; `none` where they fail. -/
structure FrameReader (D M : Type) where
  isBlob : D → Bool
  arrayBuffer : D → Option D
  decodeMessage : D → Option M

inductive Arrival (D : Type) where
  | frame (data : D)
  | close (code : Option ℚ)
  deriving DecidableEq

/-- What the owner hears: a `message`, that a frame could not be read, or a `close`. -/
inductive Emission (M : Type) where
  | message (value : M)
  | decodeError
  | close (code : Option ℚ)
  deriving DecidableEq

/-- A client with the links of its inbound chain, what waits for a handler, what has reached
it, and what it has emitted. -/
structure Traffic (D M : Type) where
  client : Client
  links : List (Arrival D)
  held : Option (Arrival D)
  arrived : List (Arrival D)
  emitted : List (Emission M)
  deriving DecidableEq

namespace Traffic

variable {D M : Type} (K : FrameReader D M) (t : Traffic D M)

def new (config : Config) : Traffic D M := ⟨PowerWebSocketClient.new config, [], none, [], []⟩

def deliverFrame (data : D) : Traffic D M :=
  match K.decodeMessage data with
  | none => { t with emitted := t.emitted ++ [.decodeError] }
  | some value => { t with emitted := t.emitted ++ [.message value] }

def convertAndDeliver (data : D) : Traffic D M :=
  if K.isBlob data = true then
    match K.arrayBuffer data with
    | none => { t with emitted := t.emitted ++ [.decodeError] }
    | some frame => t.deliverFrame K frame
  else t.deliverFrame K data

/-- `_handleMessage` after the report of an oversized frame. -/
def handleMessageRest (data : D) : Traffic D M :=
  if K.isBlob data = true ∨ t.client.inbound.isSome = true then
    { t with links := t.links ++ [.frame data] }
  else t.deliverFrame K data

def handleMessage (data : D) (oversize : Bool) : Traffic D M :=
  let t := { t with arrived := t.arrived ++ [Arrival.frame data] }
  if oversize = true then { t with held := some (.frame data) } else t.handleMessageRest K data

def emitCloseAndReconnect (code : Option ℚ) : Traffic D M :=
  if t.client.inbound.isSome = true then { t with links := t.links ++ [.close code] }
  else { t with emitted := t.emitted ++ [.close code] }

def handleClose (code : Option ℚ) : Traffic D M :=
  if t.client.paused = true then { t with held := some (.close code) } else t.emitCloseAndReconnect code

def inboundDone : Traffic D M :=
  match t.links with
  | [] => t
  | .frame data :: links => { t with links }.convertAndDeliver K data
  | .close code :: links => { t with links, emitted := t.emitted ++ [.close code] }

/-- The handler that was called last returns. -/
def handlerReturns : Traffic D M :=
  match t.client.stack.head?, t.held with
  | some (.received _), some (.frame data) => { t with held := none }.handleMessageRest K data
  | some (.closing _ code), _ => { t with held := none }.emitCloseAndReconnect code
  | some .readFailed, _ => { t with held := none }.handleClose (some 1006)
  | _, _ => t

def readFails (k : ℕ) : Traffic D M :=
  if hears t.client k = true ∧ t.client.streamReader = some k ∧ t.client.state = .opened ∧
      t.client.closedByUser = false then
    { t with arrived := t.arrived ++ [Arrival.close (some 1006)], held := some (.close (some 1006)) }
  else t

/-- What a turn makes of the frames. -/
def turn : Turn → Traffic D M
  | .socketClose k code =>
    if t.client.config.streams = false ∧ hears t.client k = true then
      { t with arrived := t.arrived ++ [Arrival.close code] }.handleClose code
    else t
  | .readFails k => t.readFails k
  | .inbound => t.inboundDone K
  | _ => t

def note : Event → Traffic D M
  | .handlerReturns _ => t.handlerReturns K
  | .turn turn => if t.client.stack = [] then t.turn K turn else t
  | _ => t

end Traffic

def Event.isFrame : Event → Bool
  | .turn (.socketMessage _ _ _) => true
  | _ => false

/-- A frame with its data at the `k`-th socket, or any other event. -/
inductive Input (D : Type) where
  | frame (k : ℕ) (data : D) (oversize : Bool)
  | event (e : Event) (h : e.isFrame = false)

variable {D M : Type} {K : FrameReader D M} {t : Traffic D M}

def Input.toEvent (K : FrameReader D M) : Input D → Event
  | .frame k data oversize => .turn (.socketMessage k (K.isBlob data) oversize)
  | .event e _ => e

def Traffic.step (K : FrameReader D M) (t : Traffic D M) (i : Input D) : Traffic D M :=
  let t' := match i with
    | .frame k data oversize =>
      if t.client.stack = [] ∧ hears t.client k = true then t.handleMessage K data oversize else t
    | .event e _ => t.note K e
  { t' with client := PowerWebSocketClient.step t.client (i.toEvent K) }

/-- What is to come of an arrival: a frame that can be read is a `message`. -/
def Arrival.outcome (K : FrameReader D M) : Arrival D → Emission M
  | .frame data =>
    match (if K.isBlob data = true then K.arrayBuffer data else some data).bind K.decodeMessage with
    | none => .decodeError
    | some value => .message value
  | .close code => .close code

/-- Nothing that has arrived waits: no handler is running, and the chain is dry. -/
def Traffic.AtRest (t : Traffic D M) : Prop := t.client.stack = [] ∧ t.client.inbound.getD [] = []

/-- What has been emitted is what was to come of the first arrivals, in their order, each
once, and of all of them at rest; and what comes next is emitted when the head of the chain
is done. -/
structure InOrder (K : FrameReader D M) (t : Traffic D M) : Prop where
  emitted : t.emitted <+: t.arrived.map (Arrival.outcome K)
  rest : t.AtRest → t.emitted = t.arrived.map (Arrival.outcome K)
  next : t.client.stack = [] → t.client.inbound.getD [] ≠ [] →
    ∃ emission, (t.step K (.event (.turn .inbound) rfl)).emitted = t.emitted ++ [emission]

/-! ## What the client keeps of the chain -/

/-- What waits for a handler that runs: a frame, a `Blob` or not, or a close. -/
inductive Waiting where
  | frame (blob : Bool)
  | close (code : Option ℚ)
  deriving DecidableEq

def Frame.waiting : Frame → Option Waiting
  | .received blob => some (.frame blob)
  | .closing _ code => some (.close code)
  | .readFailed => some (.close (some 1006))
  | _ => none

structure SameChain (s s' : Client) : Prop where
  inbound : s'.inbound = s.inbound
  waiting : s'.stack.filterMap Frame.waiting = s.stack.filterMap Frame.waiting

variable {s s' s'' : Client}

namespace SameChain

theorem refl (s : Client) : SameChain s s := ⟨rfl, rfl⟩

theorem trans (h : SameChain s s') (h' : SameChain s' s'') : SameChain s s'' :=
  ⟨h'.inbound.trans h.inbound, h'.waiting.trans h.waiting⟩

/-- The same, of a client with other fields changed first. -/
theorem of_eq (h : SameChain s' s'') (hinbound : s'.inbound = s.inbound) (hstack : s'.stack = s.stack) :
    SameChain s s'' :=
  ⟨h.inbound.trans hinbound, h.waiting.trans (by rw [hstack])⟩

section
variable (s : Client)

theorem emit (frame : Frame) (h : frame.waiting = none) :
    SameChain s (PowerWebSocketClient.emit s frame) :=
  ⟨rfl, List.filterMap_cons_none h⟩

theorem done (attempt : ℕ) : SameChain s (PowerWebSocketClient.done s attempt) := by
  unfold PowerWebSocketClient.done
  split <;> exact ⟨rfl, rfl⟩

theorem settle (attempt : Option ℕ) : SameChain s (PowerWebSocketClient.settle s attempt) := by
  cases attempt with
  | none => exact refl s
  | some attempt => exact done s attempt

theorem closeSocket (refused : Bool) :
    SameChain s (PowerWebSocketClient.closeSocket s refused) := by
  unfold PowerWebSocketClient.closeSocket
  split
  · exact refl s
  · split <;> exact ⟨rfl, rfl⟩

theorem schedulePoll : SameChain s (PowerWebSocketClient.schedulePoll s) := by
  unfold PowerWebSocketClient.schedulePoll
  split
  · exact refl s
  · split <;> exact ⟨rfl, rfl⟩

theorem scheduleHeartbeat : SameChain s (PowerWebSocketClient.scheduleHeartbeat s) := by
  unfold PowerWebSocketClient.scheduleHeartbeat
  split <;> exact ⟨rfl, rfl⟩

theorem heartbeatRest : SameChain s (PowerWebSocketClient.heartbeatRest s) := by
  unfold PowerWebSocketClient.heartbeatRest
  split
  · exact scheduleHeartbeat s
  · exact refl s

theorem scheduleReconnect (now : ℚ) :
    SameChain s (PowerWebSocketClient.scheduleReconnect s now) := by
  unfold PowerWebSocketClient.scheduleReconnect
  split_ifs <;> exact ⟨rfl, rfl⟩

theorem openSocket (throws : Bool) : SameChain s (PowerWebSocketClient.openSocket s throws) := by
  unfold PowerWebSocketClient.openSocket
  dsimp only
  split
  · exact ⟨rfl, rfl⟩
  · split <;> exact ⟨rfl, rfl⟩

theorem connect (throws : Bool) : SameChain s (PowerWebSocketClient.connect s throws) := by
  unfold PowerWebSocketClient.connect
  split
  · exact refl s
  · exact (openSocket { s with closedByUser := false } throws).of_eq rfl rfl

theorem close (refused : Bool) : SameChain s (PowerWebSocketClient.close s refused) := by
  have hbegin : SameChain s (PowerWebSocketClient.closeSocket (closeBegin s) refused) :=
    (closeSocket (closeBegin s) refused).of_eq rfl rfl
  unfold PowerWebSocketClient.close
  dsimp only
  split
  · exact hbegin.trans (emit _ .closingByUser rfl)
  · exact hbegin.trans ⟨rfl, rfl⟩

theorem transmit (buffered : ℚ) (dropOnBackpressure : Bool) :
    SameChain s (PowerWebSocketClient.transmit s buffered dropOnBackpressure) := by
  unfold PowerWebSocketClient.transmit
  split
  · exact refl s
  · split <;> exact ⟨rfl, rfl⟩

theorem handleOpenRest (attempt k : ℕ) :
    SameChain s (PowerWebSocketClient.handleOpenRest s attempt k) := by
  have hdone := done s attempt
  unfold PowerWebSocketClient.handleOpenRest startStreamPump
  dsimp only
  split
  · refine hdone.trans ?_
    split
    · exact refl _
    · split <;> exact ⟨rfl, rfl⟩
  · exact hdone

theorem handleOpen (attempt k : ℕ) : SameChain s (PowerWebSocketClient.handleOpen s attempt k) := by
  unfold PowerWebSocketClient.handleOpen
  dsimp only
  split
  · exact handleOpenRest s attempt k
  · have hopened := schedulePoll { s with
      state := .opened, reconnectAttempts := 0, reconnectStartedAt := none }
    exact ((hopened.of_eq (s := s) rfl rfl).trans (scheduleHeartbeat _)).trans (emit _ (.opened attempt k) rfl)

theorem finishCloseRest (attempt : Option ℕ) (code : Option ℚ) (now : ℚ) :
    SameChain s (PowerWebSocketClient.finishCloseRest s attempt code now) := by
  unfold PowerWebSocketClient.finishCloseRest
  dsimp only
  refine trans ?_ (settle _ attempt)
  split
  · exact refl s
  · split
    · exact refl s
    · exact (scheduleReconnect { s with
        reconnectStartedAt := some (s.reconnectStartedAt.getD now) } now).of_eq rfl rfl

theorem socketEvent {listener : Client → Socket → Client} (k : ℕ)
    (h : ∀ socket, SameChain s (listener s socket)) :
    SameChain s (PowerWebSocketClient.socketEvent s k listener) := by
  rcases socketEvent_eq s k listener with ⟨-, heq⟩ | ⟨socket, -, heq⟩
  · rw [heq]
    exact refl s
  · rw [heq]
    exact h socket

theorem connectTimeout (id : ℕ) (refused : Bool) :
    SameChain s (PowerWebSocketClient.connectTimeout s id refused) := by
  unfold PowerWebSocketClient.connectTimeout
  split
  · exact refl s
  · dsimp only
    split
    · exact ⟨rfl, rfl⟩
    · have hdone := (done { s with connectTimer := s.connectTimer.fire id } id).of_eq (s := s) rfl rfl
      exact hdone.trans ((closeSocket { PowerWebSocketClient.done { s with
        connectTimer := s.connectTimer.fire id } id with state := .closed } refused).of_eq rfl rfl)

theorem reconnect (id : ℕ) (throws : Bool) :
    SameChain s (PowerWebSocketClient.reconnect s id throws) := by
  unfold PowerWebSocketClient.reconnect
  split
  · exact refl s
  · dsimp only
    split
    · exact ⟨rfl, rfl⟩
    · exact (openSocket { s with reconnectTimer := s.reconnectTimer.fire id } throws).of_eq rfl rfl

theorem heartbeat (id : ℕ) (canPing throws : Bool) :
    SameChain s (PowerWebSocketClient.heartbeat s id canPing throws) := by
  unfold PowerWebSocketClient.heartbeat
  split
  · exact refl s
  · dsimp only
    split_ifs
    · exact ⟨rfl, rfl⟩
    · exact (heartbeatRest _).of_eq rfl rfl
    · exact (heartbeatRest { s with heartbeatTimer := s.heartbeatTimer.fire id }).of_eq rfl rfl
    · exact (heartbeatRest { s with heartbeatTimer := s.heartbeatTimer.fire id }).of_eq rfl rfl

theorem heartbeatTimeout (id : ℕ) (refused : Bool) :
    SameChain s (PowerWebSocketClient.heartbeatTimeout s id refused) := by
  unfold PowerWebSocketClient.heartbeatTimeout
  split
  · exact refl s
  · dsimp only
    split
    · exact (closeSocket (clearHeartbeat { s with
        heartbeatDeadline := s.heartbeatDeadline.fire id }) refused).of_eq rfl rfl
    · exact ⟨rfl, rfl⟩

theorem poll (id : ℕ) (buffered : ℚ) : SameChain s (PowerWebSocketClient.poll s id buffered) := by
  unfold PowerWebSocketClient.poll
  split
  · exact refl s
  · dsimp only
    split
    · exact (schedulePoll { s with pollTimer := s.pollTimer.fire id }).of_eq rfl rfl
    · exact ⟨rfl, rfl⟩

end

end SameChain

/-! ## The frames and the chain -/

def Arrival.job : Arrival D → Job
  | .frame _ => .frame
  | .close code => .finishClose code

def Arrival.waiting (K : FrameReader D M) : Arrival D → Waiting
  | .frame data => .frame (K.isBlob data)
  | .close code => .close code

/-- The links and what is held are those of the client, and what has arrived has been
emitted, is in the chain or is held, in this order. -/
structure Aligned (K : FrameReader D M) (t : Traffic D M) : Prop where
  links : t.client.inbound.getD [] = t.links.map Arrival.job
  held : t.client.stack.filterMap Frame.waiting = (t.held.map (Arrival.waiting K)).toList
  arrived : t.arrived.map (Arrival.outcome K) =
    t.emitted ++ (t.links ++ t.held.toList).map (Arrival.outcome K)

theorem Aligned.same (h : Aligned K t) (hs : SameChain t.client s') : Aligned K { t with client := s' } :=
  ⟨by rw [← h.links, hs.inbound], by rw [← h.held, hs.waiting], h.arrived⟩

theorem deliverFrame_eq (t : Traffic D M) (data : D) :
    t.deliverFrame K data = { t with emitted := t.emitted ++
      [match K.decodeMessage data with
        | none => .decodeError
        | some value => .message value] } := by
  unfold Traffic.deliverFrame
  cases K.decodeMessage data <;> rfl

theorem convertAndDeliver_eq (t : Traffic D M) (data : D) :
    t.convertAndDeliver K data =
      { t with emitted := t.emitted ++ [(Arrival.frame data).outcome K] } := by
  unfold Traffic.convertAndDeliver Arrival.outcome
  dsimp only
  split
  · cases K.arrayBuffer data with
    | none => rfl
    | some frame => exact deliverFrame_eq t frame
  · exact deliverFrame_eq t data

theorem Aligned.message {s : Client} (hinbound : s.inbound = t.client.inbound)
    (hlinks : s.inbound.getD [] = t.links.map Arrival.job)
    (hstack : s.stack.filterMap Frame.waiting = []) (hheld : t.held = none) {data : D}
    (harrived : t.arrived.map (Arrival.outcome K) =
      t.emitted ++ (t.links ++ [Arrival.frame data]).map (Arrival.outcome K)) :
    Aligned K { t.handleMessageRest K data with client := handleMessageRest s (K.isBlob data) } := by
  unfold Traffic.handleMessageRest handleMessageRest
  rw [← hinbound]
  by_cases hjoins : K.isBlob data = true ∨ s.inbound.isSome = true
  · rw [if_pos hjoins, if_pos hjoins]
    refine ⟨?_, ?_, ?_⟩
    · show s.inbound.getD [] ++ [.frame] = _
      rw [hlinks, List.map_append]
      rfl
    · show s.stack.filterMap Frame.waiting = _
      rw [hstack, show t.held = none from hheld]
      rfl
    · rw [harrived, show t.held = none from hheld]
      simp
  · rw [if_neg hjoins, if_neg hjoins]
    obtain ⟨hblob, hnone⟩ := not_or.mp hjoins
    have hdry : t.links = [] := by
      have hinbound : s.inbound = none := by simpa using hnone
      rw [hinbound] at hlinks
      exact List.map_eq_nil_iff.mp hlinks.symm
    have hconvert : t.deliverFrame K data = t.convertAndDeliver K data := by
      unfold Traffic.convertAndDeliver
      rw [if_neg hblob]
    rw [hconvert, convertAndDeliver_eq]
    refine ⟨hlinks, ?_, ?_⟩
    · rw [hstack, show t.held = none from hheld]
      rfl
    · rw [harrived, hdry, show t.held = none from hheld]
      simp

theorem Aligned.close {s : Client} (hinbound : s.inbound = t.client.inbound)
    (hlinks : s.inbound.getD [] = t.links.map Arrival.job)
    (hstack : s.stack.filterMap Frame.waiting = []) (hheld : t.held = none) {code : Option ℚ}
    (harrived : t.arrived.map (Arrival.outcome K) =
      t.emitted ++ (t.links ++ [Arrival.close code]).map (Arrival.outcome K)) (attempt : Option ℕ) :
    Aligned K { t.emitCloseAndReconnect code with client := handleCloseRest s attempt code } := by
  unfold Traffic.emitCloseAndReconnect handleCloseRest emitCloseAndReconnect
  dsimp only
  rw [← hinbound]
  cases hjobs : s.inbound with
  | some jobs =>
    rw [hjobs] at hlinks
    rw [if_pos (by rfl)]
    have hsettled := SameChain.settle { s with
      writer := false, streamReader := none, state := .closed,
      inbound := some (jobs ++ [.finishClose code]) } attempt
    refine ⟨?_, ?_, ?_⟩
    · show Option.getD (settle _ attempt).inbound [] = _
      rw [hsettled.inbound]
      show jobs ++ [.finishClose code] = _
      rw [show jobs = t.links.map Arrival.job from hlinks, List.map_append]
      rfl
    · show List.filterMap Frame.waiting (settle _ attempt).stack = _
      rw [hsettled.waiting, hheld]
      exact hstack
    · show t.arrived.map _ = _
      rw [harrived, hheld]
      simp
  | none =>
    rw [hjobs] at hlinks
    rw [if_neg (by simp)]
    have hdry : t.links = [] := List.map_eq_nil_iff.mp hlinks.symm
    refine ⟨hlinks, ?_, ?_⟩
    · show List.filterMap Frame.waiting (_ :: s.stack) = _
      rw [List.filterMap_cons_none rfl, hstack, hheld]
      rfl
    · show t.arrived.map _ = _
      rw [harrived, hdry, hheld]
      simp [Arrival.outcome]

/-- A close that reaches the client next waits for the `resume` handler, if a producer is
paused. -/
theorem Aligned.handleClose {s : Client} (hinbound : s.inbound = t.client.inbound)
    (hpaused : s.paused = t.client.paused) (hlinks : s.inbound.getD [] = t.links.map Arrival.job)
    (hstack : s.stack.filterMap Frame.waiting = []) (hheld : t.held = none) {code : Option ℚ}
    (harrived : t.arrived.map (Arrival.outcome K) =
      t.emitted ++ (t.links ++ [Arrival.close code]).map (Arrival.outcome K)) (attempt : Option ℕ) :
    Aligned K { t.handleClose code with client := PowerWebSocketClient.handleClose s attempt code } := by
  unfold Traffic.handleClose PowerWebSocketClient.handleClose
  dsimp only
  rw [show (stopPoll (clearHeartbeat s)).paused = t.client.paused from hpaused]
  split
  · refine ⟨hlinks, ?_, harrived⟩
    show Waiting.close code :: List.filterMap Frame.waiting s.stack = _
    rw [hstack]
    rfl
  · exact Aligned.close (s := stopPoll (clearHeartbeat s)) hinbound hlinks hstack hheld harrived attempt

section
variable (h : Aligned K t)
include h

theorem Aligned.held_none (hstack : t.client.stack = []) : t.held = none := by
  have hnone := h.held
  rw [hstack, List.filterMap_nil] at hnone
  cases hh : t.held with
  | none => rfl
  | some a =>
    rw [hh] at hnone
    cases hnone

/-- What waits for the handler that was called last is what is held, and nothing else. -/
theorem Aligned.head {frame : Frame} {outer : List Frame} {w : Waiting}
    (hstack : t.client.stack = frame :: outer) (hw : frame.waiting = some w) :
    ∃ a, t.held = some a ∧ a.waiting K = w ∧ outer.filterMap Frame.waiting = [] := by
  have hheld := h.held
  rw [hstack, List.filterMap_cons_some hw] at hheld
  cases hh : t.held with
  | none =>
    rw [hh] at hheld
    cases hheld
  | some a =>
    rw [hh] at hheld
    obtain ⟨hhead, hrest⟩ := List.cons.inj hheld
    exact ⟨a, rfl, hhead.symm, hrest⟩

/-! ## A step -/

theorem Aligned.frame (k : ℕ) (data : D) (oversize : Bool) :
    Aligned K (t.step K (.frame k data oversize)) := by
  unfold Traffic.step Input.toEvent PowerWebSocketClient.step
  dsimp only
  by_cases hstack : t.client.stack = []
  · have hheld := h.held_none hstack
    have hwaiting : t.client.stack.filterMap Frame.waiting = [] := by
      rw [hstack]
      rfl
    have harrived : (t.arrived ++ [Arrival.frame data]).map (Arrival.outcome K) =
        t.emitted ++ (t.links ++ [Arrival.frame data]).map (Arrival.outcome K) := by
      rw [List.map_append, h.arrived, hheld]
      simp
    rw [if_pos hstack]
    unfold PowerWebSocketClient.turn
    rcases socketEvent_eq t.client k (fun s _ =>
      if oversize = true then emit s (.received (K.isBlob data)) else
        handleMessageRest s (K.isBlob data)) with ⟨hdeaf, heq⟩ | ⟨socket, hhears, heq⟩
    · rw [if_neg (by simp [hdeaf])]
      dsimp only
      rw [heq]
      exact h
    · rw [if_pos ⟨hstack, hhears⟩]
      dsimp only
      rw [heq]
      unfold Traffic.handleMessage
      dsimp only
      split
      · refine ⟨h.links, ?_, harrived⟩
        show Waiting.frame (K.isBlob data) :: List.filterMap Frame.waiting t.client.stack = _
        rw [hwaiting]
        rfl
      · exact Aligned.message (t := { t with arrived := t.arrived ++ [Arrival.frame data] }) rfl h.links
          hwaiting hheld harrived
  · rw [if_neg hstack, if_neg fun h => hstack h.1]
    exact h

theorem Aligned.inboundDone :
    Aligned K { t.inboundDone K with client := PowerWebSocketClient.inboundDone t.client } := by
  have hlinks := h.links
  unfold Traffic.inboundDone PowerWebSocketClient.inboundDone
  cases hinbound : t.client.inbound with
  | none =>
    rw [hinbound] at hlinks
    rw [List.map_eq_nil_iff.mp hlinks.symm]
    exact h
  | some jobs =>
    rw [hinbound] at hlinks
    cases hl : t.links with
    | nil =>
      rw [hl] at hlinks
      obtain rfl : jobs = [] := hlinks
      exact h
    | cons a links =>
      rw [hl] at hlinks
      obtain rfl : jobs = a.job :: links.map Arrival.job := hlinks
      have harrived := h.arrived
      rw [hl] at harrived
      cases a with
      | frame data =>
        dsimp only [Arrival.job]
        rw [convertAndDeliver_eq]
        refine ⟨rfl, h.held, ?_⟩
        show t.arrived.map _ = (t.emitted ++ [_]) ++ _
        rw [harrived]
        simp
      | close code =>
        refine ⟨rfl, ?_, ?_⟩
        · show List.filterMap Frame.waiting (_ :: t.client.stack) = _
          rw [List.filterMap_cons_none rfl]
          exact h.held
        · show t.arrived.map _ = (t.emitted ++ [_]) ++ _
          rw [harrived]
          simp [Arrival.outcome]

theorem Aligned.socketClose (hstack : t.client.stack = []) (k : ℕ)
    (code : Option ℚ) :
    Aligned K { t.turn K (.socketClose k code) with
      client := PowerWebSocketClient.socketClose t.client k code } := by
  have hheld := h.held_none hstack
  have hwaiting : t.client.stack.filterMap Frame.waiting = [] := by
    rw [hstack]
    rfl
  have harrived : (t.arrived ++ [Arrival.close code]).map (Arrival.outcome K) =
      t.emitted ++ (t.links ++ [Arrival.close code]).map (Arrival.outcome K) := by
    rw [List.map_append, h.arrived, hheld]
    simp
  unfold Traffic.turn PowerWebSocketClient.socketClose
  dsimp only
  by_cases hstreams : t.client.config.streams = true
  · have hdeaf : ¬ (t.client.config.streams = false ∧ hears t.client k = true) := by simp [hstreams]
    rw [if_neg hdeaf, if_pos (show (peerCloses t.client k).config.streams = true from hstreams)]
    exact h.same ⟨rfl, rfl⟩
  · rw [if_neg (show ¬ (peerCloses t.client k).config.streams = true from hstreams)]
    rcases socketEvent_eq (peerCloses t.client k) k (fun s socket =>
      PowerWebSocketClient.handleClose s (some socket.attempt) code) with
      ⟨hdeaf, heq⟩ | ⟨socket, hhears, heq⟩
    · rw [hears_peerCloses] at hdeaf
      have hdeaf' : ¬ (t.client.config.streams = false ∧ hears t.client k = true) := by simp [hdeaf]
      rw [if_neg hdeaf', heq]
      exact h.same ⟨rfl, rfl⟩
    · rw [hears_peerCloses] at hhears
      have hhears' : t.client.config.streams = false ∧ hears t.client k = true :=
        ⟨by simpa using hstreams, hhears⟩
      rw [if_pos hhears', heq]
      exact Aligned.handleClose (t := { t with arrived := t.arrived ++ [Arrival.close code] })
        (s := peerCloses t.client k) rfl rfl h.links hwaiting hheld harrived (some socket.attempt)

theorem Aligned.readFails (hstack : t.client.stack = []) (k : ℕ) :
    Aligned K { t.readFails k with client := PowerWebSocketClient.readFails t.client k } := by
  have hheld := h.held_none hstack
  unfold Traffic.readFails PowerWebSocketClient.readFails
  rcases socketEvent_eq (peerCloses t.client k) k (fun s _ =>
    if s.streamReader = some k ∧ s.state = .opened ∧ s.closedByUser = false then emit s .readFailed
    else s) with ⟨hdeaf, heq⟩ | ⟨socket, hhears, heq⟩
  · rw [hears_peerCloses] at hdeaf
    rw [if_neg fun h => Bool.false_ne_true (hdeaf.symm.trans h.1), heq]
    exact h.same ⟨rfl, rfl⟩
  · rw [hears_peerCloses] at hhears
    rw [heq]
    by_cases hopen : (peerCloses t.client k).streamReader = some k ∧
        (peerCloses t.client k).state = .opened ∧ (peerCloses t.client k).closedByUser = false
    · have hreads : hears t.client k = true ∧ t.client.streamReader = some k ∧
          t.client.state = .opened ∧ t.client.closedByUser = false := ⟨hhears, hopen⟩
      rw [if_pos hreads]
      dsimp only
      rw [if_pos hopen]
      refine ⟨h.links, ?_, ?_⟩
      · show Waiting.close (some 1006) :: List.filterMap Frame.waiting t.client.stack = _
        rw [hstack]
        rfl
      · show (t.arrived ++ [Arrival.close (some 1006)]).map _ = _
        rw [List.map_append, h.arrived, hheld]
        simp
    · rw [if_neg fun h => hopen h.2]
      dsimp only
      rw [if_neg hopen]
      exact h.same ⟨rfl, rfl⟩

theorem Aligned.turn (hstack : t.client.stack = []) (turn : Turn)
    (hframe : (Event.turn turn).isFrame = false) :
    Aligned K { t.turn K turn with client := PowerWebSocketClient.turn t.client turn } := by
  cases turn with
  | socketOpen k =>
    apply h.same
    show SameChain _ (socketEvent t.client k fun s socket => handleOpen s socket.attempt k)
    exact SameChain.socketEvent _ k fun socket => SameChain.handleOpen _ socket.attempt k
  | socketError k =>
    apply h.same
    show SameChain _ (socketEvent t.client k fun s socket => emit s (.settle socket.attempt))
    exact SameChain.socketEvent _ k fun socket => SameChain.emit _ (.settle socket.attempt) rfl
  | socketClose k code => exact h.socketClose hstack k code
  | socketMessage k blob oversize => cases hframe
  | socketPong k =>
    apply h.same
    show SameChain _ (socketEvent t.client k fun s _ =>
      { s with heartbeatDeadline := s.heartbeatDeadline.clear })
    exact SameChain.socketEvent _ k fun socket => ⟨rfl, rfl⟩
  | readFails k => exact h.readFails hstack k
  | inbound => exact h.inboundDone
  | connectTimeout id refused => exact h.same (SameChain.connectTimeout _ id refused)
  | reconnect id throws => exact h.same (SameChain.reconnect _ id throws)
  | heartbeat id canPing throws => exact h.same (SameChain.heartbeat _ id canPing throws)
  | heartbeatTimeout id refused => exact h.same (SameChain.heartbeatTimeout _ id refused)
  | poll id buffered => exact h.same (SameChain.poll _ id buffered)

theorem Aligned.handlerReturns (now : ℚ) :
    Aligned K { t.handlerReturns K with client := PowerWebSocketClient.handlerReturns t.client now } := by
  unfold Traffic.handlerReturns PowerWebSocketClient.handlerReturns
  cases hstack : t.client.stack with
  | nil => exact h
  | cons frame outer =>
    have hpopped (hnone : frame.waiting = none) : SameChain t.client { t.client with stack := outer } := by
      refine ⟨rfl, ?_⟩
      rw [hstack, List.filterMap_cons_none hnone]
    dsimp only [List.head?_cons]
    cases frame with
    | opened attempt k => exact h.same ((hpopped rfl).trans (SameChain.handleOpenRest _ attempt k))
    | settle attempt => exact h.same ((hpopped rfl).trans (SameChain.done _ attempt))
    | finishing attempt code =>
      exact h.same ((hpopped rfl).trans (SameChain.finishCloseRest _ attempt code now))
    | closingByUser => exact h.same ((hpopped rfl).trans ⟨rfl, rfl⟩)
    | heartbeat => exact h.same ((hpopped rfl).trans (SameChain.heartbeatRest _))
    | poll => exact h.same ((hpopped rfl).trans (SameChain.schedulePoll _))
    | received blob =>
      obtain ⟨a, hheld, hkind, houter⟩ := h.head hstack rfl
      cases a with
      | close code => cases hkind
      | frame data =>
        obtain rfl : K.isBlob data = blob := by
          cases hkind
          rfl
        have harrived := h.arrived
        rw [hheld] at harrived ⊢
        exact Aligned.message (t := { t with held := none }) (s := { t.client with stack := outer }) rfl
          h.links houter rfl harrived
    | closing attempt code =>
      obtain ⟨a, hheld, hkind, houter⟩ := h.head hstack rfl
      cases a with
      | frame data => cases hkind
      | close code' =>
        obtain rfl : code' = code := by
          cases hkind
          rfl
        have harrived := h.arrived
        rw [hheld] at harrived
        exact Aligned.close (t := { t with held := none }) (s := { t.client with stack := outer }) rfl
          h.links houter rfl harrived attempt
    | readFailed =>
      obtain ⟨a, hheld, hkind, houter⟩ := h.head hstack rfl
      cases a with
      | frame data => cases hkind
      | close code =>
        obtain rfl : code = some 1006 := by
          cases hkind
          rfl
        have harrived := h.arrived
        rw [hheld] at harrived
        exact Aligned.handleClose (t := { t with held := none }) (s := { t.client with
          stack := outer, connectionGeneration := t.client.connectionGeneration + 1 }) rfl rfl
          h.links houter rfl harrived none

theorem Aligned.step (i : Input D) : Aligned K (t.step K i) := by
  cases i with
  | frame k data oversize => exact h.frame k data oversize
  | event e hframe =>
    cases e with
    | connect throws => exact h.same (SameChain.connect _ throws)
    | close refused => exact h.same (SameChain.close _ refused)
    | transmit buffered dropOnBackpressure => exact h.same (SameChain.transmit _ buffered dropOnBackpressure)
    | handlerReturns now => exact h.handlerReturns now
    | turn turn =>
      unfold Traffic.step Traffic.note Input.toEvent PowerWebSocketClient.step
      dsimp only
      by_cases hstack : t.client.stack = []
      · rw [if_pos hstack, if_pos hstack]
        exact h.turn hstack turn hframe
      · rw [if_neg hstack, if_neg hstack]
        exact h

theorem Aligned.inOrder : InOrder K t := by
  refine ⟨⟨_, h.arrived.symm⟩, ?_, ?_⟩
  · rintro ⟨hstack, hdry⟩
    have hlinks : t.links = [] := by
      have hmap := h.links
      rw [hdry] at hmap
      exact List.map_eq_nil_iff.mp hmap.symm
    rw [h.arrived, hlinks, h.held_none hstack]
    exact (List.append_nil _).symm
  · intro hstack hchain
    unfold Traffic.step Traffic.note
    dsimp only
    rw [if_pos hstack]
    unfold Traffic.turn Traffic.inboundDone
    dsimp only
    cases hl : t.links with
    | nil =>
      rw [h.links, hl] at hchain
      exact absurd rfl hchain
    | cons a links =>
      cases a with
      | frame data =>
        dsimp only
        rw [convertAndDeliver_eq]
        exact ⟨_, rfl⟩
      | close code => exact ⟨_, rfl⟩

end

/-! ## Runs -/

theorem client_run (t : Traffic D M) (is : List (Input D)) :
    (run (Traffic.step K) t is).client = run PowerWebSocketClient.step t.client (is.map (Input.toEvent K)) := by
  induction is generalizing t with
  | nil => rfl
  | cons i is ih => exact ih (t.step K i)

/-- In every run of any client, whatever arrives at its sockets and over however many
connections, the messages, the frames that cannot be read and the closes are emitted in the
order in which they arrived, each once, and nothing that has arrived is left out when the
client is at rest; the chain moves on with each of its links. -/
theorem inbound_in_order (K : FrameReader D M) (config : Config) (is : List (Input D)) :
    Always (Traffic.step K) (InOrder K) (Traffic.new config) is :=
  (always_of_step (fun _ i h => Aligned.step h i) ⟨rfl, rfl, rfl⟩ is).mono fun _ h => h.inOrder

end PerformanceHelpers.PowerWebSocketClient
