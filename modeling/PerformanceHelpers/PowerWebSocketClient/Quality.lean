import PerformanceHelpers.PowerWebSocketClient

/- The connection quality of a client: `_connectedAt`, `_pausedAt` and `_totalPausedMs`, and
   the `backpressureRatio` that `stats` answers from them.

   A step of the client changes these fields in one of few ways (`Moves`). Beside them is
   kept when the current connection opened, and how long it has been paused since then;
   these two are not the code's. A reading of the clock is some time after the last. -/
namespace PerformanceHelpers.PowerWebSocketClient

/-- `_connectedAt`, `_pausedAt` and `_totalPausedMs`; 0 is no reading. -/
structure Meter where
  connectedAt : ℚ := 0
  pausedAt : ℚ := 0
  totalPausedMs : ℚ := 0
  deriving DecidableEq

/-- `_setPaused`, of a producer that is paused or not. -/
def Meter.setPaused (m : Meter) (was paused : Bool) (now : ℚ) : Meter :=
  if was = paused then m
  else if paused = true then { m with pausedAt := now }
  else if m.pausedAt ≠ 0 then { m with totalPausedMs := m.totalPausedMs + (now - m.pausedAt), pausedAt := 0 }
  else m

/-- `_handleClose`: a producer that is paused is told to resume first. -/
def Meter.handleClose (m : Meter) (s : Client) (now : ℚ) : Meter :=
  if s.paused = true then m.setPaused true false now else {}

/-- The listeners of the `k`-th socket hear its events. -/
def hears (s : Client) (k : ℕ) : Bool :=
  match s.sockets[k]? with
  | none => false
  | some socket => decide (Listens s k socket)

def Meter.turn (m : Meter) (s : Client) (now : ℚ) : Turn → Meter
  | .socketOpen k => if hears s k = true ∧ s.state ≠ .opened then { m with connectedAt := now } else m
  | .socketClose k _ => if s.config.streams = false ∧ hears s k = true then m.handleClose s now else m
  | .poll id buffered =>
    if id ∈ s.pollTimer.running then m.setPaused s.paused (watermark s buffered) now else m
  | _ => m

/-- What an event makes of the fields. -/
def Meter.step (m : Meter) (s : Client) (now : ℚ) : Event → Meter
  | .transmit buffered dropOnBackpressure =>
    m.setPaused s.paused (transmit s buffered dropOnBackpressure).paused now
  | .handlerReturns _ =>
    match s.stack.head? with
    | some (.closing _ _) => {}
    | some .readFailed => m.handleClose s now
    | _ => m
  | .turn t => if s.stack = [] then m.turn s now t else m
  | .connect _ | .close _ => m

/-- `backpressureRatio` of `stats`. -/
def Meter.backpressureRatio (m : Meter) (paused : Bool) (now : ℚ) : ℚ :=
  if m.connectedAt = 0 then 0
  else
    let pausedMs := m.totalPausedMs + if paused = true ∧ m.pausedAt ≠ 0 then now - m.pausedAt else 0
    let uptime := now - m.connectedAt
    if 0 < uptime then pausedMs / uptime else 0

/-- A client whose clock reads `clock`, with the reading at which the current connection
opened, and the time it has been paused since. -/
structure Metered where
  client : Client
  meter : Meter
  clock : ℚ
  openedAt : Option ℚ
  pausedFor : ℚ
  deriving DecidableEq

/-- Some time later an event comes, or `stats` is read. -/
structure Reading where
  elapsed : ℚ≥0
  event : Option Event
  deriving DecidableEq

def Metered.new (config : Config) (clock : ℚ) : Metered := ⟨PowerWebSocketClient.new config, {}, clock, none, 0⟩

/-- What becomes of the client. -/
def after (s : Client) : Option Event → Client
  | none => s
  | some e => step s e

def measure (w : Metered) (r : Reading) : Metered :=
  let now := w.clock + r.elapsed
  let client := after w.client r.event
  { client := client
    meter := r.event.elim w.meter (w.meter.step w.client now)
    clock := now
    openedAt :=
      if client.state = .opened then (if w.client.state = .opened then w.openedAt else some now) else none
    pausedFor :=
      if client.state = .opened ∧ w.client.state = .opened then
        w.pausedFor + if w.client.paused = true then (r.elapsed : ℚ) else 0
      else 0 }

/-- What `stats` is to answer: a ratio within bounds, and, while a connection is open, the time
it has been paused by the time it has been open. -/
structure Measures (w : Metered) : Prop where
  nonneg : 0 ≤ w.meter.backpressureRatio w.client.paused w.clock
  le_one : w.meter.backpressureRatio w.client.paused w.clock ≤ 1
  eq : ∀ opened ∈ w.openedAt, w.meter.backpressureRatio w.client.paused w.clock = w.pausedFor / (w.clock - opened)

instance (w : Metered) : Decidable (Measures w) :=
  decidable_of_iff (0 ≤ w.meter.backpressureRatio w.client.paused w.clock ∧
      w.meter.backpressureRatio w.client.paused w.clock ≤ 1 ∧
      ∀ opened ∈ w.openedAt, w.meter.backpressureRatio w.client.paused w.clock = w.pausedFor / (w.clock - opened))
    ⟨fun h => ⟨h.1, h.2.1, h.2.2⟩, fun h => ⟨h.nonneg, h.le_one, h.eq⟩⟩

def Opening (s : Client) : Event → Prop
  | .turn (.socketOpen k) => s.stack = [] ∧ hears s k = true ∧ s.state ≠ .opened
  | _ => False

instance (s : Client) (e : Event) : Decidable (Opening s e) := by
  unfold Opening
  split <;> infer_instance

/-- Nothing is left of a connection before when one opens: no pause, and no time that was
paused. -/
def OpensClean (w : Metered) (r : Reading) : Prop :=
  ∀ e ∈ r.event, Opening w.client e → w.client.paused = false ∧ w.meter.totalPausedMs = 0

instance (w : Metered) (r : Reading) : Decidable (OpensClean w r) :=
  inferInstanceAs (Decidable (∀ e ∈ r.event, _))

/-! ## How the fields change -/

structure Flags where
  state : ReadyState
  paused : Bool
  meter : Meter

inductive Moves (now : ℚ) (o : Prop) (f : Flags) : Flags → Prop where
  | idle : Moves now o f f
  | opens (ho : o) (h : f.state ≠ .opened) :
      Moves now o f { f with state := .opened, meter := { f.meter with connectedAt := now } }
  | sets (paused : Bool) (h : f.paused = false → paused = true → f.state = .opened) :
      Moves now o f { f with paused := paused, meter := f.meter.setPaused f.paused paused now }
  | closes : Moves now o f { f with state := .closed, meter := {} }
  | closedByUser : Moves now o f { f with state := .closed, paused := false }
  | leaves (state : ReadyState) (h : state ≠ .opened) : Moves now o f { f with state := state }

variable {s s' s'' : Client} {m : Meter} {now : ℚ} {o : Prop}

/-- Neither the state nor the pause changes. -/
structure Steady (s s' : Client) : Prop where
  state : s'.state = s.state
  paused : s'.paused = s.paused

theorem Steady.refl (s : Client) : Steady s s := ⟨rfl, rfl⟩

theorem Steady.trans (h : Steady s s') (h' : Steady s' s'') : Steady s s'' :=
  ⟨h'.state.trans h.state, h'.paused.trans h.paused⟩

section
variable (s : Client)

theorem done_steady (attempt : ℕ) : Steady s (done s attempt) := by
  unfold done
  split <;> exact ⟨rfl, rfl⟩

theorem settle_steady (attempt : Option ℕ) : Steady s (settle s attempt) := by
  cases attempt with
  | none => exact Steady.refl s
  | some attempt => exact done_steady s attempt

theorem emit_steady (frame : Frame) : Steady s (emit s frame) := ⟨rfl, rfl⟩

theorem closeSocket_steady (refused : Bool) : Steady s (closeSocket s refused) := by
  unfold closeSocket
  split
  · exact Steady.refl s
  · split <;> exact ⟨rfl, rfl⟩

theorem schedulePoll_steady : Steady s (schedulePoll s) := by
  unfold schedulePoll
  split
  · exact Steady.refl s
  · split <;> exact ⟨rfl, rfl⟩

theorem scheduleHeartbeat_steady : Steady s (scheduleHeartbeat s) := by
  unfold scheduleHeartbeat
  split <;> exact ⟨rfl, rfl⟩

theorem heartbeatRest_steady : Steady s (heartbeatRest s) := by
  unfold heartbeatRest
  split
  · exact scheduleHeartbeat_steady s
  · exact Steady.refl s

theorem startStreamPump_steady (k : ℕ) : Steady s (startStreamPump s k) := by
  unfold startStreamPump
  split
  · exact Steady.refl s
  · split <;> exact ⟨rfl, rfl⟩

theorem handleOpenRest_steady (attempt k : ℕ) : Steady s (handleOpenRest s attempt k) := by
  unfold handleOpenRest
  dsimp only
  split
  · exact (done_steady s attempt).trans (startStreamPump_steady _ k)
  · exact done_steady s attempt

theorem handleMessageRest_steady (blob : Bool) : Steady s (handleMessageRest s blob) := by
  unfold handleMessageRest
  split <;> exact ⟨rfl, rfl⟩

theorem finishCloseRest_steady (attempt : Option ℕ) (code : Option ℚ) (now : ℚ) :
    Steady s (finishCloseRest s attempt code now) := by
  unfold finishCloseRest scheduleReconnect
  refine Steady.trans ?_ (settle_steady _ attempt)
  split_ifs <;> exact ⟨rfl, rfl⟩

theorem emitCloseAndReconnect_steady (attempt : Option ℕ) (code : Option ℚ) :
    Steady s (emitCloseAndReconnect s attempt code) := by
  unfold emitCloseAndReconnect
  split
  · refine Steady.trans ?_ (settle_steady _ attempt)
    exact ⟨rfl, rfl⟩
  · exact emit_steady s _

theorem inboundDone_steady : Steady s (inboundDone s) := by
  unfold inboundDone
  split
  · split <;> exact ⟨rfl, rfl⟩
  · exact Steady.refl s

end

def flags (s : Client) (m : Meter) : Flags := ⟨s.state, s.paused, m⟩

theorem Steady.moves (h : Steady s s') : Moves now o (flags s m) (flags s' m) := by
  have hflags : flags s' m = flags s m := by
    unfold flags
    rw [h.state, h.paused]
  rw [hflags]
  exact .idle

theorem Steady.flags_eq (h : Steady s s') (m : Meter) : flags s' m = flags s m := by
  unfold flags
  rw [h.state, h.paused]

section
variable (s : Client)

theorem handleCloseRest_moves (m : Meter) (attempt : Option ℕ) (code : Option ℚ) :
    Moves now o (flags s m) (flags (handleCloseRest s attempt code) {}) := by
  have hsteady := emitCloseAndReconnect_steady { s with writer := false, streamReader := none, state := .closed } attempt code
  change Moves now o _ (flags (emitCloseAndReconnect _ attempt code) {})
  rw [hsteady.flags_eq]
  exact .closes

theorem handleClose_moves (m : Meter) (attempt : Option ℕ) (code : Option ℚ) :
    Moves now o (flags s m) (flags (handleClose s attempt code) (m.handleClose s now)) := by
  unfold handleClose Meter.handleClose
  dsimp only
  change Moves now o _ (flags (if s.paused = true then _ else _) _)
  split
  · next hpaused =>
    have hflags : m.setPaused true false now = m.setPaused s.paused false now := by rw [hpaused]
    rw [hflags]
    exact .sets false fun _ h => by cases h
  · exact handleCloseRest_moves (stopPoll (clearHeartbeat s)) m attempt code

theorem openSocket_moves (m : Meter) (throws : Bool) :
    Moves now o (flags s m) (flags (openSocket s throws) m) := by
  unfold openSocket
  dsimp only
  split
  · exact .leaves .closed (by decide)
  · split
    · exact .leaves .connecting (by decide)
    · exact .leaves .connecting (by decide)

theorem close_moves (m : Meter) (refused : Bool) : Moves now o (flags s m) (flags (close s refused) m) := by
  have hbegin : Steady s (closeSocket (closeBegin s) refused) := by
    refine Steady.trans ?_ (closeSocket_steady (closeBegin s) refused)
    exact ⟨rfl, rfl⟩
  unfold close
  dsimp only
  split
  · exact (hbegin.trans (emit_steady _ _)).moves
  · have hrest : flags (closeRest (closeSocket (closeBegin s) refused)) m = { flags s m with state := .closed, paused := false } := rfl
    rw [hrest]
    exact .closedByUser

theorem transmit_moves (m : Meter) (buffered : ℚ) (dropOnBackpressure : Bool) :
    Moves now o (flags s m) (flags (transmit s buffered dropOnBackpressure)
      (m.setPaused s.paused (transmit s buffered dropOnBackpressure).paused now)) := by
  have hsame : m.setPaused s.paused s.paused now = m := if_pos rfl
  unfold transmit
  split
  · rw [hsame]
    exact .idle
  · next hopen =>
    split
    · refine .sets true fun _ _ => ?_
      by_contra hstate
      exact hopen (.inl hstate)
    · rw [hsame]
      exact .idle

theorem socketEvent_eq (k : ℕ) (listener : Client → Socket → Client) :
    (hears s k = false ∧ socketEvent s k listener = s) ∨
      ∃ socket, hears s k = true ∧ socketEvent s k listener = listener s socket := by
  unfold hears socketEvent
  cases s.sockets[k]? with
  | none => exact .inl ⟨rfl, rfl⟩
  | some socket =>
    dsimp only
    by_cases hlistens : Listens s k socket
    · rw [if_pos hlistens]
      exact .inr ⟨socket, decide_eq_true hlistens, rfl⟩
    · rw [if_neg hlistens]
      exact .inl ⟨decide_eq_false hlistens, rfl⟩

theorem socketEvent_steady {l : Client → Socket → Client} (k : ℕ)
    (h : ∀ socket, Steady s (l s socket)) : Steady s (socketEvent s k l) := by
  rcases socketEvent_eq s k l with ⟨-, heq⟩ | ⟨socket, -, heq⟩
  · rw [heq]
    exact Steady.refl s
  · rw [heq]
    exact h socket

theorem hears_peerCloses (k : ℕ) : hears (peerCloses s k) k = hears s k := by
  unfold hears peerCloses
  dsimp only
  rw [List.getElem?_modify_eq]
  cases s.sockets[k]? <;> rfl

theorem socketOpen_moves (m : Meter) (k : ℕ) (ho : hears s k = true → s.state ≠ .opened → o) :
    Moves now o (flags s m) (flags (turn s (.socketOpen k)) (m.turn s now (.socketOpen k))) := by
  change Moves now o _ (flags (socketEvent s k fun s socket => handleOpen s socket.attempt k)
    (if hears s k = true ∧ s.state ≠ .opened then { m with connectedAt := now } else m))
  rcases socketEvent_eq s k fun s socket => handleOpen s socket.attempt k with ⟨hno, heq⟩ | ⟨socket, hyes, heq⟩
  · rw [heq, if_neg fun h => by rw [hno] at h; exact absurd h.1 (by decide)]
    exact .idle
  · rw [heq]
    unfold handleOpen
    split
    · next hopen =>
      rw [if_neg fun h => h.2 hopen]
      exact (handleOpenRest_steady s _ k).moves
    · next hopen =>
      rw [if_pos ⟨hyes, hopen⟩]
      have hpoll := schedulePoll_steady { s with state := .opened, reconnectAttempts := 0, reconnectStartedAt := none }
      have hsteady := (hpoll.trans (scheduleHeartbeat_steady _)).trans (emit_steady _ (.opened socket.attempt k))
      rw [hsteady.flags_eq]
      exact .opens (ho hyes hopen) hopen

theorem socketClose_moves (m : Meter) (k : ℕ) (code : Option ℚ) :
    Moves now o (flags s m) (flags (turn s (.socketClose k code)) (m.turn s now (.socketClose k code))) := by
  change Moves now o _ (flags (if s.config.streams = true then peerCloses s k
      else socketEvent (peerCloses s k) k fun s socket => handleClose s (some socket.attempt) code)
    (if s.config.streams = false ∧ hears s k = true then m.handleClose s now else m))
  split
  · next hstreams =>
    rw [if_neg fun h => by rw [hstreams] at h; exact absurd h.1 (by decide)]
    exact .idle
  · next hstreams =>
    rcases socketEvent_eq (peerCloses s k) k fun s socket => handleClose s (some socket.attempt) code with
      ⟨hno, heq⟩ | ⟨socket, hyes, heq⟩
    · rw [hears_peerCloses] at hno
      rw [heq, if_neg fun h => by rw [hno] at h; exact absurd h.2 (by decide)]
      exact .idle
    · rw [hears_peerCloses] at hyes
      rw [heq, if_pos ⟨Bool.eq_false_iff.mpr hstreams, hyes⟩]
      exact handleClose_moves (peerCloses s k) m (some socket.attempt) code

theorem connectTimeout_moves (m : Meter) (id : ℕ) (refused : Bool) :
    Moves now o (flags s m) (flags (connectTimeout s id refused) m) := by
  unfold connectTimeout
  split
  · exact .idle
  · dsimp only
    split
    · exact .idle
    · have hdone := done_steady { s with connectTimer := s.connectTimer.fire id } id
      have hclose := closeSocket_steady
        { done { s with connectTimer := s.connectTimer.fire id } id with state := .closed } refused
      have hflags : flags (closeSocket
          { done { s with connectTimer := s.connectTimer.fire id } id with state := .closed } refused) m =
          { flags s m with state := .closed } := by
        rw [hclose.flags_eq]
        unfold flags
        dsimp only
        rw [hdone.paused]
      rw [hflags]
      exact .leaves .closed (by decide)

theorem reconnect_moves (m : Meter) (id : ℕ) (throws : Bool) :
    Moves now o (flags s m) (flags (reconnect s id throws) m) := by
  unfold reconnect
  split
  · exact .idle
  · dsimp only
    split
    · exact .idle
    · exact openSocket_moves { s with reconnectTimer := s.reconnectTimer.fire id } m throws

theorem heartbeat_steady (id : ℕ) (canPing throws : Bool) :
    Steady s (heartbeat s id canPing throws) := by
  have hrest : ∀ s', Steady s s' → Steady s (heartbeatRest s') :=
    fun s' h => h.trans (heartbeatRest_steady s')
  unfold heartbeat
  split
  · exact Steady.refl s
  · dsimp only
    split
    · split
      · exact ⟨rfl, rfl⟩
      · split
        · exact hrest _ ⟨rfl, rfl⟩
        · exact hrest _ ⟨rfl, rfl⟩
    · exact hrest _ ⟨rfl, rfl⟩

theorem heartbeatTimeout_steady (id : ℕ) (refused : Bool) : Steady s (heartbeatTimeout s id refused) := by
  unfold heartbeatTimeout
  split
  · exact Steady.refl s
  · dsimp only
    split
    · refine Steady.trans ?_ (closeSocket_steady _ refused)
      exact ⟨rfl, rfl⟩
    · exact ⟨rfl, rfl⟩

end

theorem watermark_opened {buffered : ℚ} (h : watermark s buffered ≠ s.paused) : s.state = .opened := by
  by_contra hstate
  apply h
  unfold watermark
  rw [if_pos hstate]

section
variable (s : Client) (m : Meter)

theorem poll_moves (id : ℕ) (buffered : ℚ) :
    Moves now o (flags s m) (flags (poll s id buffered)
      (if id ∈ s.pollTimer.running then m.setPaused s.paused (watermark s buffered) now else m)) := by
  unfold poll
  by_cases hid : id ∈ s.pollTimer.running
  · rw [if_neg (not_not.mpr hid), if_pos hid]
    have hwater : watermark { s with pollTimer := s.pollTimer.fire id } buffered = watermark s buffered := rfl
    dsimp only
    rw [hwater]
    split
    · next hsame =>
      have hmeter : m.setPaused s.paused (watermark s buffered) now = m := if_pos hsame.symm
      rw [hmeter]
      exact (schedulePoll_steady { s with pollTimer := s.pollTimer.fire id }).moves
    · next hdiffers => exact .sets (watermark s buffered) fun _ _ => watermark_opened hdiffers
  · rw [if_pos hid, if_neg hid]
    exact .idle

theorem turn_moves (t : Turn)
    (ho : ∀ k, t = .socketOpen k → hears s k = true → s.state ≠ .opened → o) :
    Moves now o (flags s m) (flags (turn s t) (m.turn s now t)) := by
  cases t with
  | socketOpen k => exact socketOpen_moves s m k (ho k rfl)
  | socketError k => exact (socketEvent_steady s k fun _ => emit_steady s _).moves
  | socketClose k code => exact socketClose_moves s m k code
  | socketMessage k blob oversize =>
    apply Steady.moves
    apply socketEvent_steady s k
    intro socket
    split
    · exact emit_steady s _
    · exact handleMessageRest_steady s blob
  | socketPong k =>
    apply Steady.moves
    apply socketEvent_steady s k
    intro socket
    exact ⟨rfl, rfl⟩
  | readFails k =>
    apply Steady.moves
    change Steady s (readFails s k)
    have hpeer : Steady s (peerCloses s k) := ⟨rfl, rfl⟩
    apply hpeer.trans
    apply socketEvent_steady (peerCloses s k) k
    intro socket
    split
    · exact emit_steady _ _
    · exact Steady.refl _
  | inbound => exact (inboundDone_steady s).moves
  | connectTimeout id refused => exact connectTimeout_moves s m id refused
  | reconnect id throws => exact reconnect_moves s m id throws
  | heartbeat id canPing throws => exact (heartbeat_steady s id canPing throws).moves
  | heartbeatTimeout id refused => exact (heartbeatTimeout_steady s id refused).moves
  | poll id buffered => exact poll_moves s m id buffered

theorem handlerReturns_moves (read : ℚ) :
    Moves now o (flags s m) (flags (handlerReturns s read) (m.step s now (.handlerReturns read))) := by
  unfold handlerReturns Meter.step
  cases hstack : s.stack with
  | nil => exact .idle
  | cons frame outer =>
    have hpop : flags s m = flags { s with stack := outer } m := rfl
    rw [hpop]
    dsimp only [List.head?_cons]
    cases frame with
    | opened attempt k => exact (handleOpenRest_steady _ attempt k).moves
    | settle attempt => exact (done_steady _ attempt).moves
    | closing attempt code => exact handleCloseRest_moves _ m attempt code
    | finishing attempt code => exact (finishCloseRest_steady _ attempt code read).moves
    | readFailed =>
      exact handleClose_moves { s with stack := outer, connectionGeneration := s.connectionGeneration + 1 } m none
        (some 1006)
    | closingByUser => exact .closedByUser
    | received blob => exact (handleMessageRest_steady _ blob).moves
    | heartbeat => exact (heartbeatRest_steady _).moves
    | poll => exact (schedulePoll_steady _).moves

/-- An event changes the fields in one of the few ways. -/
theorem step_moves (e : Event) :
    Moves now (Opening s e) (flags s m) (flags (step s e) (m.step s now e)) := by
  cases e with
  | connect throws =>
    change Moves now _ _ (flags (connect s throws) m)
    unfold connect
    split
    · exact .idle
    · exact openSocket_moves { s with closedByUser := false } m throws
  | close refused => exact close_moves s m refused
  | transmit buffered dropOnBackpressure => exact transmit_moves s m buffered dropOnBackpressure
  | handlerReturns read => exact handlerReturns_moves s m read
  | turn t =>
    change Moves now _ _ (flags (if s.stack = [] then turn s t else s) (if s.stack = [] then m.turn s now t else m))
    split
    · next hstack =>
      apply turn_moves s m t
      rintro k rfl hhears hopen
      exact ⟨hstack, hhears, hopen⟩
    · exact .idle

end

/-! ## What the fields measure -/

def Flags.carried (f : Flags) (clock : ℚ) : ℚ :=
  if f.paused = true ∧ f.meter.pausedAt ≠ 0 then clock - f.meter.pausedAt else 0

/-- The fields hold readings of the clock, what was paused fits in the time since `_connectedAt`, and
while a connection is open they say how long it is, and how long it was paused. -/
structure Sound (f : Flags) (clock : ℚ) (openedAt : Option ℚ) (pausedFor : ℚ) : Prop where
  positive : 0 < clock
  connected : 0 ≤ f.meter.connectedAt ∧ f.meter.connectedAt ≤ clock
  pausedAt : 0 ≤ f.meter.pausedAt ∧ f.meter.pausedAt ≤ clock
  total : 0 ≤ f.meter.totalPausedMs
  bounded : f.meter.connectedAt ≠ 0 → f.meter.totalPausedMs + f.carried clock ≤ clock - f.meter.connectedAt
  opened : f.state = .opened → openedAt = some f.meter.connectedAt ∧ f.meter.connectedAt ≠ 0 ∧
    pausedFor = f.meter.totalPausedMs + f.carried clock ∧ (f.paused = true → f.meter.pausedAt ≠ 0)
  closed : f.state ≠ .opened → openedAt = none

variable {f f' : Flags} {clock pausedFor : ℚ} {openedAt : Option ℚ}

section
variable (h : Sound f clock openedAt pausedFor)
include h

theorem Sound.carried_nonneg : 0 ≤ f.carried clock := by
  have hpausedAt := h.pausedAt.2
  unfold Flags.carried
  split
  · linarith
  · exact le_rfl

theorem Sound.tick {elapsed : ℚ} (he : 0 ≤ elapsed) :
    Sound f (clock + elapsed) openedAt (pausedFor + if f.paused = true then elapsed else 0) := by
  have hcarried : f.carried (clock + elapsed) =
      f.carried clock + if f.paused = true ∧ f.meter.pausedAt ≠ 0 then elapsed else 0 := by
    unfold Flags.carried
    split_ifs <;> ring
  have hclock := h.positive
  refine ⟨by linarith, ⟨h.connected.1, by linarith [h.connected.2]⟩, ⟨h.pausedAt.1, by linarith [h.pausedAt.2]⟩,
    h.total, fun hne => ?_, fun hopen => ?_, h.closed⟩
  · have hbounded := h.bounded hne
    rw [hcarried]
    split_ifs <;> linarith
  · obtain ⟨hat, hne, hpaused, hpausedAt⟩ := h.opened hopen
    refine ⟨hat, hne, ?_, hpausedAt⟩
    rw [hcarried, hpaused]
    by_cases hp : f.paused = true
    · rw [if_pos hp, if_pos ⟨hp, hpausedAt hp⟩]
      ring
    · rw [if_neg hp, if_neg fun hand => hp hand.1]
      ring

theorem Sound.sets (paused : Bool)
    (hopen : f.paused = false → paused = true → f.state = .opened) :
    Sound { f with paused := paused, meter := f.meter.setPaused f.paused paused clock } clock openedAt pausedFor := by
  unfold Meter.setPaused
  by_cases hsame : f.paused = paused
  · rw [if_pos hsame, ← hsame]
    exact h
  · rw [if_neg hsame]
    cases paused with
    | true =>
      have hno : f.paused = false := Bool.eq_false_iff.mpr hsame
      have hcarried : f.carried clock = 0 := if_neg fun hand => hsame hand.1
      have hne : clock ≠ 0 := h.positive.ne'
      have hcarried' : Flags.carried { f with paused := true, meter := { f.meter with pausedAt := clock } } clock = 0 := by
        unfold Flags.carried
        rw [if_pos ⟨rfl, hne⟩, sub_self]
      rw [if_pos rfl]
      refine ⟨h.positive, h.connected, ⟨h.positive.le, le_rfl⟩, h.total, fun hconnected => ?_, fun hstate => ?_, h.closed⟩
      · have hbounded := h.bounded hconnected
        rw [hcarried] at hbounded
        rw [hcarried']
        exact hbounded
      · obtain ⟨hat, hconnected, hpaused, -⟩ := h.opened hstate
        rw [hcarried] at hpaused
        exact ⟨hat, hconnected, by rw [hcarried']; exact hpaused, fun _ => hne⟩
    | false =>
      have hyes : f.paused = true := by
        cases hp : f.paused with
        | true => rfl
        | false => exact absurd hp hsame
      rw [if_neg (by decide)]
      split
      · next hne =>
        have hcarried : f.carried clock = clock - f.meter.pausedAt := if_pos ⟨hyes, hne⟩
        have hcarried' : Flags.carried
            ⟨f.state, false, { f.meter with
              totalPausedMs := f.meter.totalPausedMs + (clock - f.meter.pausedAt), pausedAt := 0 }⟩ clock = 0 :=
          if_neg fun hand => by cases hand.1
        have hpausedAt := h.pausedAt.2
        have htotal := h.total
        refine ⟨h.positive, h.connected, ⟨le_rfl, h.positive.le⟩, ?_, fun hconnected => ?_, fun hstate => ?_, h.closed⟩
        · dsimp only
          linarith
        · have hbounded := h.bounded hconnected
          rw [hcarried] at hbounded
          rw [hcarried', add_zero]
          exact hbounded
        · obtain ⟨hat, hconnected, hpaused, -⟩ := h.opened hstate
          rw [hcarried] at hpaused
          refine ⟨hat, hconnected, ?_, fun hp => by cases hp⟩
          rw [hcarried', add_zero]
          exact hpaused
      · next hzero =>
        have hcarried : f.carried clock = 0 := if_neg fun hand => hzero hand.2
        have hcarried' : Flags.carried ⟨f.state, false, f.meter⟩ clock = 0 := if_neg fun hand => by cases hand.1
        refine ⟨h.positive, h.connected, h.pausedAt, h.total, fun hconnected => ?_, fun hstate => ?_, h.closed⟩
        · have hbounded := h.bounded hconnected
          rw [hcarried] at hbounded
          rw [hcarried']
          exact hbounded
        · obtain ⟨hat, hconnected, hpaused, -⟩ := h.opened hstate
          rw [hcarried] at hpaused
          exact ⟨hat, hconnected, by rw [hcarried']; exact hpaused, fun hp => by cases hp⟩

end

def opensAt (f f' : Flags) (clock : ℚ) (openedAt : Option ℚ) : Option ℚ :=
  if f'.state = .opened then (if f.state = .opened then openedAt else some clock) else none

/-- A state that is not open says nothing of a connection. -/
theorem Sound.leaves (h : Sound f clock openedAt pausedFor) {state : ReadyState} (hstate : state ≠ .opened) :
    Sound { f with state := state } clock none 0 :=
  ⟨h.positive, h.connected, h.pausedAt, h.total, h.bounded, fun hopen => absurd hopen hstate, fun _ => rfl⟩

theorem Sound.moves (h : Sound f clock openedAt pausedFor) (hm : Moves clock o f f')
    (hclean : o → f.paused = false ∧ f.meter.totalPausedMs = 0) :
    Sound f' clock (opensAt f f' clock openedAt) (if f'.state = .opened ∧ f.state = .opened then pausedFor else 0) := by
  unfold opensAt
  cases hm with
  | idle =>
    by_cases hopen : f.state = .opened
    · rw [if_pos hopen, if_pos hopen, if_pos ⟨hopen, hopen⟩]
      exact h
    · rw [if_neg hopen, if_neg fun hand => hopen hand.1]
      exact ⟨h.positive, h.connected, h.pausedAt, h.total, h.bounded, fun hopen' => absurd hopen' hopen, fun _ => rfl⟩
  | opens ho hstate =>
    obtain ⟨hpaused, htotal⟩ := hclean ho
    have hcarried : Flags.carried { f with state := .opened, meter := { f.meter with connectedAt := clock } } clock = 0 :=
      if_neg fun hand => absurd (hpaused.symm.trans hand.1) (by decide)
    rw [if_pos rfl, if_neg hstate, if_neg fun hand => hstate hand.2]
    refine ⟨h.positive, ⟨h.positive.le, le_rfl⟩, h.pausedAt, h.total, fun _ => ?_, fun _ => ?_, fun hne => absurd rfl hne⟩
    · rw [hcarried]
      dsimp only
      rw [htotal]
      linarith
    · refine ⟨rfl, h.positive.ne', ?_, fun hp => absurd (hpaused.symm.trans hp) (by decide)⟩
      rw [hcarried]
      dsimp only
      rw [htotal, add_zero]
  | sets paused hopen =>
    have hsets := h.sets paused hopen
    by_cases hstate : f.state = .opened
    · rw [if_pos hstate, if_pos hstate, if_pos ⟨hstate, hstate⟩]
      exact hsets
    · rw [if_neg hstate, if_neg fun hand => hstate hand.1]
      exact hsets.leaves hstate
  | closes =>
    have hclosed : ReadyState.closed ≠ .opened := by decide
    rw [if_neg hclosed, if_neg fun hand => hclosed hand.1]
    have hzero : Flags.carried ⟨.closed, f.paused, {}⟩ clock = 0 := if_neg fun hand => hand.2 rfl
    refine ⟨h.positive, ⟨le_rfl, h.positive.le⟩, ⟨le_rfl, h.positive.le⟩, le_rfl, fun hne => absurd rfl hne, fun hopen => ?_, fun _ => rfl⟩
    exact absurd hopen hclosed
  | closedByUser =>
    have hclosed : ReadyState.closed ≠ .opened := by decide
    rw [if_neg hclosed, if_neg fun hand => hclosed hand.1]
    have hzero : Flags.carried { f with state := .closed, paused := false } clock = 0 := if_neg fun hand => by cases hand.1
    refine ⟨h.positive, h.connected, h.pausedAt, h.total, fun hne => ?_, fun hopen => absurd hopen hclosed, fun _ => rfl⟩
    have hbounded := h.bounded hne
    have hcarried := h.carried_nonneg
    rw [hzero]
    dsimp only
    linarith
  | leaves state hstate =>
    rw [if_neg hstate, if_neg fun hand => hstate hand.1]
    exact h.leaves hstate

theorem Sound.measures {w : Metered} (h : Sound (flags w.client w.meter) w.clock w.openedAt w.pausedFor) : Measures w := by
  have hcarried := h.carried_nonneg
  have htotal := h.total
  have hratio : w.meter.backpressureRatio w.client.paused w.clock =
      if w.meter.connectedAt = 0 then 0
      else if 0 < w.clock - w.meter.connectedAt then
        (w.meter.totalPausedMs + (flags w.client w.meter).carried w.clock) / (w.clock - w.meter.connectedAt)
      else 0 := rfl
  refine ⟨?_, ?_, fun opened hopened => ?_⟩
  · rw [hratio]
    split_ifs with hconnected huptime
    · exact le_rfl
    · exact div_nonneg (add_nonneg htotal hcarried) huptime.le
    · exact le_rfl
  · rw [hratio]
    split_ifs with hconnected huptime
    · exact zero_le_one
    · rw [div_le_one huptime]
      exact h.bounded hconnected
    · exact zero_le_one
  · have hopen : w.client.state = .opened := by
      by_contra hstate
      rw [h.closed hstate] at hopened
      cases hopened
    obtain ⟨hat, hconnected, hpaused, -⟩ := h.opened hopen
    have heq : w.meter.connectedAt = opened := Option.some.inj (hat.symm.trans hopened)
    change w.meter.connectedAt ≠ 0 at hconnected
    change w.pausedFor = w.meter.totalPausedMs + _ at hpaused
    rw [hratio, if_neg hconnected, ← heq, hpaused]
    split_ifs with huptime
    · rfl
    · have hzero : w.clock - w.meter.connectedAt = 0 := by
        have hle := h.connected.2
        change w.meter.connectedAt ≤ w.clock at hle
        linarith
      rw [hzero, div_zero]

/-- A reading that opens no connection over what is left of another keeps the fields sound. -/
theorem measure_sound {w : Metered} {r : Reading} (h : Sound (flags w.client w.meter) w.clock w.openedAt w.pausedFor)
    (hok : OpensClean w r) :
    Sound (flags (measure w r).client (measure w r).meter) (measure w r).clock (measure w r).openedAt
      (measure w r).pausedFor := by
  obtain ⟨elapsed, event⟩ := r
  have htick := h.tick elapsed.cast_nonneg
  cases event with
  | none => exact htick.moves (Moves.idle (o := False)) fun ho => ho.elim
  | some e => exact htick.moves (step_moves w.client w.meter e) (hok e rfl)

/-- In a run in which every connection opens clean, the ratio is within bounds at every reading, and is the
time the current connection has been paused by the time it has been open. -/
theorem ratio_measures (config : Config) (clock : ℚ) (hclock : 0 < clock) (rs : List Reading)
    (hok : Meets measure OpensClean (Metered.new config clock) rs) :
    Always measure Measures (Metered.new config clock) rs := by
  have hnew : Sound (flags (Metered.new config clock).client (Metered.new config clock).meter) clock none 0 := by
    have hclosed : ReadyState.closed ≠ .opened := by decide
    refine ⟨hclock, ⟨le_rfl, hclock.le⟩, ⟨le_rfl, hclock.le⟩, le_rfl, fun hne => absurd rfl hne, fun hopen => ?_, fun _ => rfl⟩
    exact absurd hopen hclosed
  have hstep : ∀ (w : Metered) (r : Reading), Sound (flags w.client w.meter) w.clock w.openedAt w.pausedFor →
      OpensClean w r → Sound (flags (measure w r).client (measure w r).meter) (measure w r).clock
        (measure w r).openedAt (measure w r).pausedFor := fun w r h hok => measure_sound h hok
  exact (always_of_meets hstep hnew hok).mono fun w h => h.measures

/-- A socket that is polled every few milliseconds, for more than 100 bytes. -/
def polled : Config := ⟨false, false, false, 0, 0, 0, 100, 10, true, none, none, [], true⟩

/-- A connection that is paused for half of the time until the peer closes it, and the next one. -/
theorem ratio_measures_reopened :
    Always measure Measures (Metered.new polled 1)
      [⟨0, some (.connect false)⟩, ⟨0, some (.turn (.socketOpen 0))⟩, ⟨0, some (.handlerReturns 1)⟩,
        ⟨4, some (.turn (.poll 0 200))⟩, ⟨0, some (.handlerReturns 5)⟩, ⟨4, none⟩,
        ⟨0, some (.turn (.socketClose 0 (some 1006)))⟩, ⟨0, some (.handlerReturns 9)⟩, ⟨0, some (.handlerReturns 9)⟩,
        ⟨5, some (.turn (.reconnect 2 false))⟩, ⟨1, some (.turn (.socketOpen 1))⟩, ⟨3, none⟩] := by
  apply ratio_measures polled 1 one_pos
  decide +kernel

/-- A connection that was paused for 4 of 5 ms is closed by the owner. 1 ms after the next one has opened the
ratio is 4. -/
theorem ratio_after_close :
    ¬Always measure Measures (Metered.new polled 1)
      [⟨0, some (.connect false)⟩, ⟨0, some (.turn (.socketOpen 0))⟩, ⟨0, some (.handlerReturns 1)⟩,
        ⟨1, some (.turn (.poll 0 200))⟩, ⟨0, some (.handlerReturns 2)⟩, ⟨4, some (.turn (.poll 1 0))⟩,
        ⟨0, some (.handlerReturns 6)⟩, ⟨0, some (.close false)⟩, ⟨0, some (.connect false)⟩,
        ⟨0, some (.turn (.socketOpen 1))⟩, ⟨1, none⟩] := by
  intro h
  exact absurd h.last (by decide +kernel)

end PerformanceHelpers.PowerWebSocketClient
