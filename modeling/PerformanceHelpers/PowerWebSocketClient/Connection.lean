import PerformanceHelpers.PowerWebSocketClient.Invariant

/- The client holds at most one connection, and where it does not. -/
namespace PerformanceHelpers.PowerWebSocketClient

variable {s : Client}

/-! ## What constructs a socket -/

@[simp] theorem emit_sockets (s : Client) (frame : Frame) : (emit s frame).sockets = s.sockets := rfl

@[simp] theorem done_sockets (s : Client) (attempt : ℕ) : (done s attempt).sockets = s.sockets :=
  (done_same s attempt).sockets

@[simp] theorem settle_sockets (s : Client) (attempt : Option ℕ) : (settle s attempt).sockets = s.sockets :=
  (settle_same s attempt).sockets

@[simp] theorem peerCloses_length (s : Client) (k : ℕ) : (peerCloses s k).sockets.length = s.sockets.length :=
  List.length_modify _ _ _

@[simp] theorem closeSocket_length (s : Client) (refused : Bool) :
    (closeSocket s refused).sockets.length = s.sockets.length := by
  rcases closeSocket_cases s refused with ⟨heq, -⟩ | ⟨k, -, heq⟩
  · rw [heq]
  · rw [heq, peerCloses_length]

@[simp] theorem schedulePoll_sockets (s : Client) : (schedulePoll s).sockets = s.sockets := by
  unfold schedulePoll
  split
  · rfl
  · split <;> rfl

@[simp] theorem scheduleHeartbeat_sockets (s : Client) : (scheduleHeartbeat s).sockets = s.sockets := by
  unfold scheduleHeartbeat
  split <;> rfl

@[simp] theorem heartbeatRest_sockets (s : Client) : (heartbeatRest s).sockets = s.sockets := by
  unfold heartbeatRest
  split
  · exact scheduleHeartbeat_sockets s
  · rfl

@[simp] theorem handleOpenRest_sockets (s : Client) (attempt k : ℕ) :
    (handleOpenRest s attempt k).sockets = s.sockets := by
  unfold handleOpenRest
  dsimp only
  split
  · rw [(startStreamPump_same _ k).sockets, done_sockets]
  · exact done_sockets s attempt

@[simp] theorem handleOpen_sockets (s : Client) (attempt k : ℕ) : (handleOpen s attempt k).sockets = s.sockets := by
  unfold handleOpen
  split
  · exact handleOpenRest_sockets s attempt k
  · simp

@[simp] theorem handleCloseRest_sockets (s : Client) (attempt : Option ℕ) (code : Option ℚ) :
    (handleCloseRest s attempt code).sockets = s.sockets := by
  unfold handleCloseRest emitCloseAndReconnect finishClose
  split <;> simp

@[simp] theorem handleClose_sockets (s : Client) (attempt : Option ℕ) (code : Option ℚ) :
    (handleClose s attempt code).sockets = s.sockets := by
  unfold handleClose stopPoll clearHeartbeat
  dsimp only
  split <;> simp

@[simp] theorem finishCloseRest_sockets (s : Client) (attempt : Option ℕ) (code : Option ℚ) (now : ℚ) :
    (finishCloseRest s attempt code now).sockets = s.sockets := by
  unfold finishCloseRest
  dsimp only
  rw [settle_sockets]
  split
  · rfl
  · split
    · rfl
    · rw [(scheduleReconnect_same _ now).sockets]

@[simp] theorem handleMessageRest_sockets (s : Client) (blob : Bool) :
    (handleMessageRest s blob).sockets = s.sockets := by
  unfold handleMessageRest
  split <;> rfl

theorem close_length (s : Client) (refused : Bool) : (close s refused).sockets.length = s.sockets.length := by
  have hbegin : (closeSocket (closeBegin s) refused).sockets.length = s.sockets.length := closeSocket_length _ _
  unfold close
  dsimp only
  split
  · exact hbegin
  · exact hbegin

theorem handlerReturns_length (s : Client) (now : ℚ) :
    (handlerReturns s now).sockets.length = s.sockets.length := by
  unfold handlerReturns
  split
  · rfl
  · next frame outer _ => cases frame <;> simp [resume, closeRest]

theorem socketEvent_length {listener : Client → Socket → Client} (s : Client) (k : ℕ)
    (hlistener : ∀ socket, (listener s socket).sockets.length = s.sockets.length) :
    (socketEvent s k listener).sockets.length = s.sockets.length := by
  rcases socketEvent_cases s k listener with heq | ⟨socket, -, heq⟩
  · rw [heq]
  · rw [heq, hlistener]

theorem turn_length (s : Client) (t : Turn) (ht : ∀ id throws, t ≠ .reconnect id throws) :
    (turn s t).sockets.length = s.sockets.length := by
  cases t with
  | socketOpen k => exact socketEvent_length s k fun socket => by simp
  | socketError k => exact socketEvent_length s k fun socket => rfl
  | socketClose k code =>
    show (socketClose s k code).sockets.length = _
    unfold socketClose
    dsimp only
    split
    · exact peerCloses_length s k
    · rw [socketEvent_length _ k fun socket => by simp, peerCloses_length]
  | socketMessage k blob oversize =>
    refine socketEvent_length s k fun socket => ?_
    split <;> simp
  | socketPong k => exact socketEvent_length s k fun socket => rfl
  | readFails k =>
    refine Eq.trans (socketEvent_length _ k fun socket => ?_) (peerCloses_length s k)
    split <;> rfl
  | inbound =>
    show (inboundDone s).sockets.length = _
    unfold inboundDone
    split
    · next job jobs _ => cases job <;> rfl
    · rfl
  | connectTimeout id refused =>
    show (connectTimeout s id refused).sockets.length = _
    unfold connectTimeout
    split
    · rfl
    · dsimp only
      split
      · rfl
      · rw [closeSocket_length]
        simp
  | reconnect id throws => exact absurd rfl (ht id throws)
  | heartbeat id canPing throws =>
    show (heartbeat s id canPing throws).sockets.length = _
    unfold heartbeat
    split
    · rfl
    · dsimp only
      split
      · split
        · rfl
        · split <;> simp
      · simp
  | heartbeatTimeout id refused =>
    show (heartbeatTimeout s id refused).sockets.length = _
    unfold heartbeatTimeout clearHeartbeat
    split
    · rfl
    · dsimp only
      split
      · rw [closeSocket_length]
      · rfl
  | poll id buffered =>
    show (poll s id buffered).sockets.length = _
    unfold poll
    split
    · rfl
    · dsimp only
      split <;> simp

theorem opensClosed (s : Client) (e : Event) (hok : Orderly s e) : OpensClosed s e := by
  intro hlt
  cases e with
  | connect throws =>
    replace hlt : s.sockets.length < (connect s throws).sockets.length := hlt
    unfold connect at hlt
    cases hstate : s.state with
    | connecting =>
      rw [if_pos (Or.inl hstate)] at hlt
      exact absurd hlt (Nat.lt_irrefl _)
    | opened =>
      rw [if_pos (Or.inr hstate)] at hlt
      exact absurd hlt (Nat.lt_irrefl _)
    | closed => rfl
  | close refused =>
    replace hlt : s.sockets.length < (close s refused).sockets.length := hlt
    rw [close_length] at hlt
    exact absurd hlt (Nat.lt_irrefl _)
  | transmit buffered dropOnBackpressure =>
    have hsame : (transmit s buffered dropOnBackpressure).sockets = s.sockets := by
      unfold transmit
      split
      · rfl
      · split <;> rfl
    replace hlt : s.sockets.length < (transmit s buffered dropOnBackpressure).sockets.length := hlt
    rw [hsame] at hlt
    exact absurd hlt (Nat.lt_irrefl _)
  | handlerReturns now =>
    replace hlt : s.sockets.length < (handlerReturns s now).sockets.length := hlt
    rw [handlerReturns_length] at hlt
    exact absurd hlt (Nat.lt_irrefl _)
  | turn t =>
    replace hlt : s.sockets.length < (if s.stack = [] then turn s t else s).sockets.length := hlt
    split at hlt
    · by_cases ht : ∀ id throws, t ≠ .reconnect id throws
      · rw [turn_length s t ht] at hlt
        exact absurd hlt (Nat.lt_irrefl _)
      · push Not at ht
        obtain ⟨id, throws, rfl⟩ := ht
        replace hlt : s.sockets.length < (reconnect s id throws).sockets.length := hlt
        unfold reconnect at hlt
        split at hlt
        · exact absurd hlt (Nat.lt_irrefl _)
        · next hid =>
          dsimp only at hlt
          split at hlt
          · exact absurd hlt (Nat.lt_irrefl _)
          · next huser => exact hok (not_not.mp hid) (Bool.eq_false_iff.mpr huser)
    · exact absurd hlt (Nat.lt_irrefl _)

/-- In an orderly run the client holds at most one connection: a socket is only constructed while it
is `CLOSED`, at most one socket is not closed, and at most one chain of heartbeats and one of polls
runs. -/
theorem one_connection (config : Config) (es : List Event) (hok : Meets step Orderly (new config) es) :
    Always step AtMostOne (new config) es ∧ Meets step OpensClosed (new config) es := by
  have hopens : ∀ (s : Client) (e : Event), Inv s → Orderly s e → OpensClosed s e :=
    fun s e _ hok => opensClosed s e hok
  constructor
  · have hinv := always_of_meets step_inv (new_inv config) hok
    exact hinv.mono fun s h => h.atMostOne
  · exact hok.imp step_inv hopens (new_inv config)

/-- A client that reconnects after `delay`s of the policy, polls every few milliseconds and sends
heartbeats. -/
def reconnecting : Config :=
  ⟨false, false, false, 10000, 30000, 5000, 1000, 100, true, none, none, [], true⟩

/-- An outage that the reconnect timer ends, with a frame that is still converted when the peer
closes. -/
theorem one_connection_outage :
    let es : List Event := [.connect false, .turn (.socketOpen 0), .handlerReturns 0,
      .turn (.socketMessage 0 true false), .turn (.socketClose 0 (some 1006)), .turn .inbound, .turn .inbound,
      .handlerReturns 5, .turn (.reconnect 2 false), .turn (.socketOpen 1), .handlerReturns 9, .close false]
    Always step AtMostOne (new reconnecting) es ∧ Meets step OpensClosed (new reconnecting) es :=
  one_connection reconnecting _ (by decide +kernel)

/-- The owner connects again during the outage, and the reconnect timer opens another socket while
that connection is open: two sockets, two chains of heartbeats and two of polls. -/
theorem reconnect_doubles_connection :
    let s := run step (new reconnecting) [.connect false, .turn (.socketOpen 0), .handlerReturns 0,
      .turn (.socketClose 0 (some 1006)), .handlerReturns 5, .connect false, .turn (.socketOpen 1), .handlerReturns 6]
    let s' := run step s [.turn (.reconnect 2 false), .turn (.socketOpen 2), .handlerReturns 7]
    s.state = .opened ∧ ¬OpensClosed s (.turn (.reconnect 2 false)) ∧
      s'.sockets.map Socket.closed = [true, false, false] ∧
      s'.heartbeatTimer.running.length = 2 ∧ s'.pollTimer.running.length = 2 := by
  refine ⟨?_, ?_, ?_, ?_, ?_⟩
  · decide +kernel
  · unfold OpensClosed
    decide +kernel
  · decide +kernel
  · decide +kernel
  · decide +kernel

end PerformanceHelpers.PowerWebSocketClient
