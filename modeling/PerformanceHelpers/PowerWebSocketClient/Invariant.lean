import PerformanceHelpers.PowerWebSocketClient

/- What every step of a client keeps: the socket it holds is the only one that may be open, and the
   chains of heartbeats and polls run while it says `OPEN`. Each function of the client has one lemma,
   and most of them only change what the invariant does not speak of (`Same`). -/
namespace PerformanceHelpers.PowerWebSocketClient

/-! ## What every step keeps -/

def Frame.ticks : Frame → Bool
  | .heartbeat | .poll => true
  | _ => false

def Frame.stopped : Frame → Bool
  | .closing _ _ | .closingByUser => true
  | _ => false

/-- Only the socket that the client holds may be open, and none when it says `CLOSED`; the chains run
while it says `OPEN`; a callback that goes on with a chain is the turn itself, so that no frame lies
under it; and the chains have stopped where a close is in the middle. -/
structure Inv (s : Client) : Prop where
  others : ∀ (k : ℕ) (socket : Socket), s.sockets[k]? = some socket → s.socket ≠ some k → socket.closed = true
  held : s.state = .closed → HeldClosed s
  heartbeat : Chain s.heartbeatTimer (s.stack.count .heartbeat) (s.state = .opened)
  poll : Chain s.pollTimer (s.stack.count .poll) (s.state = .opened)
  bottom : ∀ frame ∈ s.stack.dropLast, frame.ticks = false
  stopped : ∀ frame ∈ s.stack, frame.stopped = true →
    s.heartbeatTimer.running = [] ∧ s.pollTimer.running = []

variable {s s' : Client}

structure Same (s s' : Client) : Prop where
  sockets : s'.sockets = s.sockets
  socket : s'.socket = s.socket
  state : s'.state = s.state
  heartbeat : s'.heartbeatTimer = s.heartbeatTimer
  poll : s'.pollTimer = s.pollTimer
  stack : s'.stack = s.stack

theorem Same.held (h : Same s s') (hheld : HeldClosed s) : HeldClosed s' := by
  unfold HeldClosed
  rw [h.sockets, h.socket]
  exact hheld

theorem Inv.same (h : Inv s) (hs : Same s s') : Inv s' := by
  refine ⟨?_, ?_, ?_, ?_, ?_, ?_⟩
  · rw [hs.sockets, hs.socket]
    exact h.others
  · rw [hs.state]
    exact fun hclosed => hs.held (h.held hclosed)
  · rw [hs.heartbeat, hs.stack, hs.state]
    exact h.heartbeat
  · rw [hs.poll, hs.stack, hs.state]
    exact h.poll
  · rw [hs.stack]
    exact h.bottom
  · rw [hs.stack, hs.heartbeat, hs.poll]
    exact h.stopped

theorem count_cons_of_ticks_false {frame : Frame} (hframe : frame.ticks = false) (stack : List Frame) :
    (frame :: stack).count .heartbeat = stack.count .heartbeat ∧
      (frame :: stack).count .poll = stack.count .poll := by
  constructor
  · refine List.count_cons_of_ne ?_
    rintro rfl
    exact Bool.noConfusion hframe
  · refine List.count_cons_of_ne ?_
    rintro rfl
    exact Bool.noConfusion hframe

protected theorem Inv.emit {frame : Frame} (h : Inv s) (hframe : frame.ticks = false)
    (hstopped : frame.stopped = true → s.heartbeatTimer.running = [] ∧ s.pollTimer.running = []) :
    Inv (emit s frame) := by
  obtain ⟨hheartbeat, hpoll⟩ := count_cons_of_ticks_false hframe s.stack
  refine ⟨h.others, h.held, ?_, ?_, ?_, ?_⟩
  · show Chain s.heartbeatTimer ((frame :: s.stack).count .heartbeat) _
    rw [hheartbeat]
    exact h.heartbeat
  · show Chain s.pollTimer ((frame :: s.stack).count .poll) _
    rw [hpoll]
    exact h.poll
  · show ∀ frame' ∈ (frame :: s.stack).dropLast, _
    have hbottom := h.bottom
    cases hstack : s.stack with
    | nil => exact fun _ hmem => absurd hmem List.not_mem_nil
    | cons frame' outer =>
      rw [hstack] at hbottom
      intro frame'' hmem
      rcases List.mem_cons.mp hmem with rfl | hmem
      · exact hframe
      · exact hbottom frame'' hmem
  · intro frame' hmem hyes
    rcases List.mem_cons.mp hmem with rfl | hmem
    · exact hstopped hyes
    · exact h.stopped frame' hmem hyes

theorem Inv.pop {frame : Frame} {outer : List Frame} (h : Inv s) (hstack : s.stack = frame :: outer)
    (hframe : frame.ticks = false) : Inv { s with stack := outer } := by
  obtain ⟨hheartbeat, hpoll⟩ := count_cons_of_ticks_false hframe outer
  refine ⟨h.others, h.held, ?_, ?_, ?_, ?_⟩
  · have hchain := h.heartbeat
    rw [hstack, hheartbeat] at hchain
    exact hchain
  · have hchain := h.poll
    rw [hstack, hpoll] at hchain
    exact hchain
  · intro frame' hmem
    refine h.bottom frame' ?_
    rw [hstack]
    cases outer with
    | nil => exact absurd hmem List.not_mem_nil
    | cons frame'' outer => exact List.mem_cons_of_mem _ hmem
  · intro frame' hmem
    refine h.stopped frame' ?_
    rw [hstack]
    exact List.mem_cons_of_mem _ hmem

/-- A callback that goes on with a chain is the turn itself. -/
theorem Inv.outer_nil {frame : Frame} {outer : List Frame} (h : Inv s) (hstack : s.stack = frame :: outer)
    (hframe : frame.ticks = true) : outer = [] := by
  cases outer with
  | nil => rfl
  | cons frame' outer =>
    have hbottom := h.bottom frame (by rw [hstack]; exact List.mem_cons_self)
    rw [hframe] at hbottom
    exact Bool.noConfusion hbottom

theorem Inv.say_closed (h : Inv s) (hheld : HeldClosed s) (hheartbeat : s.heartbeatTimer.running = [])
    (hpoll : s.pollTimer.running = []) : Inv { s with state := .closed } :=
  ⟨h.others, fun _ => hheld, h.heartbeat.of_nil hheartbeat _, h.poll.of_nil hpoll _, h.bottom, h.stopped⟩

/-! ## Sockets -/

theorem done_same (s : Client) (attempt : ℕ) : Same s (done s attempt) := by
  unfold done
  split
  · exact ⟨rfl, rfl, rfl, rfl, rfl, rfl⟩
  · exact ⟨rfl, rfl, rfl, rfl, rfl, rfl⟩

theorem settle_same (s : Client) (attempt : Option ℕ) : Same s (settle s attempt) := by
  cases attempt with
  | none => exact ⟨rfl, rfl, rfl, rfl, rfl, rfl⟩
  | some attempt => exact done_same s attempt

theorem peerCloses_get (s : Client) (j k : ℕ) {socket : Socket}
    (h : (peerCloses s k).sockets[j]? = some socket) :
    ∃ old, s.sockets[j]? = some old ∧ (old.closed = true → socket.closed = true) ∧
      (k = j → socket.closed = true) := by
  replace h : (s.sockets.modify k _)[j]? = some socket := h
  rw [List.getElem?_modify] at h
  obtain ⟨old, hold, heq⟩ := Option.map_eq_some_iff.mp h
  refine ⟨old, hold, ?_, ?_⟩
  · intro hclosed
    rw [← heq]
    split
    · rfl
    · exact hclosed
  · intro hkj
    rw [← heq, if_pos hkj]

protected theorem HeldClosed.peerCloses (h : HeldClosed s) (k : ℕ) : HeldClosed (peerCloses s k) := by
  intro j hj socket hsocket
  obtain ⟨old, hold, hclosed, -⟩ := peerCloses_get s j k hsocket
  exact hclosed (h j hj old hold)

theorem peerCloses_held {k : ℕ} (h : s.socket = some k) : HeldClosed (peerCloses s k) := by
  intro j hj socket hsocket
  obtain ⟨old, -, -, hclosed⟩ := peerCloses_get s j k hsocket
  exact hclosed (Option.some.inj (h.symm.trans hj))

protected theorem Inv.peerCloses (h : Inv s) (k : ℕ) : Inv (peerCloses s k) := by
  refine ⟨?_, ?_, h.heartbeat, h.poll, h.bottom, h.stopped⟩
  · intro j socket hsocket hne
    obtain ⟨old, hold, hclosed, -⟩ := peerCloses_get s j k hsocket
    exact hclosed (h.others j old hold hne)
  · exact fun hclosed => (h.held hclosed).peerCloses k

theorem closeSocket_cases (s : Client) (refused : Bool) :
    closeSocket s refused = s ∧ (refused = true ∨ s.socket = none) ∨
      ∃ k, s.socket = some k ∧ closeSocket s refused = peerCloses s k := by
  unfold closeSocket
  split
  · next hnone => exact Or.inl ⟨rfl, Or.inr hnone⟩
  · next k hk =>
    cases refused with
    | true => exact Or.inl ⟨if_pos rfl, Or.inl rfl⟩
    | false => exact Or.inr ⟨k, hk, if_neg Bool.false_ne_true⟩

protected theorem Inv.closeSocket (h : Inv s) (refused : Bool) : Inv (closeSocket s refused) := by
  rcases closeSocket_cases s refused with ⟨heq, -⟩ | ⟨k, -, heq⟩
  · rw [heq]
    exact h
  · rw [heq]
    exact h.peerCloses k

theorem closeSocket_held {refused : Bool} (h : refused = true → HeldClosed s) :
    HeldClosed (closeSocket s refused) := by
  rcases closeSocket_cases s refused with ⟨heq, hrefused | hnone⟩ | ⟨k, hk, heq⟩
  · rw [heq]
    exact h hrefused
  · rw [heq]
    intro k hk
    rw [hnone] at hk
    cases hk
  · rw [heq]
    exact peerCloses_held hk

/-- A socket is constructed when no other is open, and while no chain runs. -/
protected theorem Inv.openSocket (h : Inv s) (throws : Bool) (hclosed : s.state = .closed) : Inv (openSocket s throws) := by
  have hne : ¬s.state = .opened := by
    rw [hclosed]
    exact fun heq => nomatch heq
  have hheartbeat := h.heartbeat.idle hne
  have hpoll := h.poll.idle hne
  have hheld := h.held hclosed
  unfold openSocket
  cases throws with
  | true =>
    dsimp only
    rw [if_pos rfl]
    refine Inv.emit ?_ rfl fun heq => Bool.noConfusion heq
    exact ⟨h.others, fun _ => hheld, h.heartbeat.of_nil hheartbeat _, h.poll.of_nil hpoll _, h.bottom, h.stopped⟩
  | false =>
    dsimp only
    rw [if_neg Bool.false_ne_true]
    have hothers : ∀ (k : ℕ) (socket new : Socket), (s.sockets ++ [new])[k]? = some socket →
        some s.sockets.length ≠ some k → socket.closed = true := by
      intro k socket new hsocket hnew
      have hlt : k < s.sockets.length := by
        have hlt := (List.getElem?_eq_some_iff.mp hsocket).1
        rw [List.length_append, List.length_singleton] at hlt
        have hk : s.sockets.length ≠ k := fun heq => hnew (congrArg some heq)
        omega
      rw [List.getElem?_append_left hlt] at hsocket
      by_cases hk : s.socket = some k
      · exact hheld k hk socket hsocket
      · exact h.others k socket hsocket hk
    have hconnecting : ¬ReadyState.connecting = .closed := fun heq => nomatch heq
    split
    · exact ⟨fun k socket => hothers k socket _, fun heq => absurd heq hconnecting,
        h.heartbeat.of_nil hheartbeat _, h.poll.of_nil hpoll _, h.bottom, h.stopped⟩
    · exact ⟨fun k socket => hothers k socket _, fun heq => absurd heq hconnecting,
        h.heartbeat.of_nil hheartbeat _, h.poll.of_nil hpoll _, h.bottom, h.stopped⟩

protected theorem Inv.connect (h : Inv s) (throws : Bool) : Inv (connect s throws) := by
  unfold connect
  split
  · exact h
  · next hlive =>
    have hclosed : s.state = .closed := by
      cases hstate : s.state with
      | connecting => exact absurd (Or.inl hstate) hlive
      | opened => exact absurd (Or.inr hstate) hlive
      | closed => rfl
    have hinv : Inv { s with closedByUser := false } := h.same ⟨rfl, rfl, rfl, rfl, rfl, rfl⟩
    exact hinv.openSocket throws hclosed

/-! ## Chains -/

theorem Inv.stop (h : Inv s) : Inv (stopPoll (clearHeartbeat s)) ∧
    (stopPoll (clearHeartbeat s)).heartbeatTimer.running = [] ∧
    (stopPoll (clearHeartbeat s)).pollTimer.running = [] := by
  have hheartbeat := h.heartbeat.clear_running
  have hpoll := h.poll.clear_running
  refine ⟨⟨h.others, h.held, h.heartbeat.clear _, h.poll.clear _, h.bottom, ?_⟩, hheartbeat, hpoll⟩
  exact fun _ _ _ => ⟨hheartbeat, hpoll⟩

theorem Inv.clearHeartbeat (h : Inv s) : Inv (clearHeartbeat s) := by
  refine ⟨h.others, h.held, h.heartbeat.clear _, h.poll, h.bottom, ?_⟩
  exact fun frame hmem hyes => ⟨h.heartbeat.clear_running, (h.stopped frame hmem hyes).2⟩

/-- Between two turns a chain's timer is another. -/
theorem Inv.retime (h : Inv s) (hstack : s.stack = []) {heartbeatTimer pollTimer : Timer} {timeouts : ℕ}
    (hheartbeat : Chain heartbeatTimer 0 (s.state = .opened)) (hpoll : Chain pollTimer 0 (s.state = .opened)) :
    Inv { s with heartbeatTimer, pollTimer, timeouts } := by
  refine ⟨h.others, h.held, ?_, ?_, h.bottom, ?_⟩
  · show Chain heartbeatTimer (s.stack.count .heartbeat) _
    rw [hstack]
    exact hheartbeat
  · show Chain pollTimer (s.stack.count .poll) _
    rw [hstack]
    exact hpoll
  · intro frame hmem
    replace hmem : frame ∈ s.stack := hmem
    rw [hstack] at hmem
    exact absurd hmem List.not_mem_nil

theorem Inv.calm (h : Inv s) (hstack : s.stack = []) :
    Chain s.heartbeatTimer 0 (s.state = .opened) ∧ Chain s.pollTimer 0 (s.state = .opened) := by
  have hheartbeat := h.heartbeat
  have hpoll := h.poll
  rw [hstack] at hheartbeat hpoll
  exact ⟨hheartbeat, hpoll⟩

protected theorem Inv.scheduleHeartbeat (h : Inv s) (hstack : s.stack = []) (hopen : s.state = .opened)
    (hnil : s.heartbeatTimer.running = []) : Inv (scheduleHeartbeat s) := by
  unfold scheduleHeartbeat
  split
  · exact h
  · exact h.retime hstack (Chain.set hnil hopen) (h.calm hstack).2

protected theorem Inv.schedulePoll (h : Inv s) (hstack : s.stack = []) (hnil : s.pollTimer.running = []) :
    Inv (schedulePoll s) := by
  unfold schedulePoll
  split
  · exact h
  · split
    · exact h
    · next hopen => exact h.retime hstack (h.calm hstack).1 (Chain.set hnil (not_not.mp hopen))

theorem schedulePoll_heartbeat (s : Client) : (schedulePoll s).heartbeatTimer = s.heartbeatTimer ∧
    (schedulePoll s).stack = s.stack ∧ (schedulePoll s).state = s.state := by
  unfold schedulePoll
  split
  · exact ⟨rfl, rfl, rfl⟩
  · split
    · exact ⟨rfl, rfl, rfl⟩
    · exact ⟨rfl, rfl, rfl⟩

protected theorem Inv.heartbeatRest (h : Inv s) (hstack : s.stack = []) (hnil : s.heartbeatTimer.running = []) :
    Inv (heartbeatRest s) := by
  unfold heartbeatRest
  split
  · next hopen => exact h.scheduleHeartbeat hstack hopen hnil
  · exact h

/-! ## Opening and closing -/

theorem startStreamPump_same (s : Client) (k : ℕ) : Same s (startStreamPump s k) := by
  unfold startStreamPump
  split
  · exact ⟨rfl, rfl, rfl, rfl, rfl, rfl⟩
  · split
    · exact ⟨rfl, rfl, rfl, rfl, rfl, rfl⟩
    · exact ⟨rfl, rfl, rfl, rfl, rfl, rfl⟩

protected theorem Inv.handleOpenRest (h : Inv s) (attempt k : ℕ) : Inv (handleOpenRest s attempt k) := by
  have hdone := h.same (done_same s attempt)
  unfold handleOpenRest
  dsimp only
  split
  · exact hdone.same (startStreamPump_same _ k)
  · exact hdone

protected theorem Inv.handleOpen (h : Inv s) (hstack : s.stack = []) (attempt k : ℕ) : Inv (handleOpen s attempt k) := by
  unfold handleOpen
  split
  · exact h.handleOpenRest attempt k
  · next hne =>
    have hheartbeat := h.heartbeat.idle hne
    have hpoll := h.poll.idle hne
    have hopened : ¬ReadyState.opened = .closed := fun heq => nomatch heq
    dsimp only
    have hinv : Inv { s with state := .opened, reconnectAttempts := 0, reconnectStartedAt := none } :=
      ⟨h.others, fun heq => absurd heq hopened, h.heartbeat.of_nil hheartbeat _, h.poll.of_nil hpoll _, h.bottom,
        h.stopped⟩
    obtain ⟨htimer, hstack', hstate⟩ := schedulePoll_heartbeat
      { s with state := .opened, reconnectAttempts := 0, reconnectStartedAt := none }
    refine Inv.emit ?_ rfl fun heq => Bool.noConfusion heq
    refine Inv.scheduleHeartbeat (hinv.schedulePoll hstack hpoll) (hstack'.trans hstack) hstate ?_
    rw [htimer]
    exact hheartbeat

protected theorem Inv.handleCloseRest (h : Inv s) (hheld : HeldClosed s) (hheartbeat : s.heartbeatTimer.running = [])
    (hpoll : s.pollTimer.running = []) (attempt : Option ℕ) (code : Option ℚ) :
    Inv (handleCloseRest s attempt code) := by
  have hinv : Inv { s with writer := false, streamReader := none, state := .closed } :=
    (h.say_closed hheld hheartbeat hpoll).same ⟨rfl, rfl, rfl, rfl, rfl, rfl⟩
  unfold handleCloseRest emitCloseAndReconnect
  split
  · refine Inv.same ?_ (settle_same _ attempt)
    exact hinv.same ⟨rfl, rfl, rfl, rfl, rfl, rfl⟩
  · exact hinv.emit rfl fun heq => Bool.noConfusion heq

protected theorem Inv.handleClose (h : Inv s) (hheld : HeldClosed s) (attempt : Option ℕ) (code : Option ℚ) :
    Inv (handleClose s attempt code) := by
  obtain ⟨hstop, hheartbeat, hpoll⟩ := h.stop
  unfold handleClose
  dsimp only
  split
  · refine Inv.emit (hstop.same ⟨rfl, rfl, rfl, rfl, rfl, rfl⟩) rfl fun _ => ?_
    exact ⟨hheartbeat, hpoll⟩
  · exact hstop.handleCloseRest hheld hheartbeat hpoll attempt code

theorem scheduleReconnect_same (s : Client) (now : ℚ) : Same s (scheduleReconnect s now) := by
  unfold scheduleReconnect
  split
  · exact ⟨rfl, rfl, rfl, rfl, rfl, rfl⟩
  · split
    · exact ⟨rfl, rfl, rfl, rfl, rfl, rfl⟩
    · split
      · exact ⟨rfl, rfl, rfl, rfl, rfl, rfl⟩
      · exact ⟨rfl, rfl, rfl, rfl, rfl, rfl⟩

protected theorem Inv.finishCloseRest (h : Inv s) (attempt : Option ℕ) (code : Option ℚ) (now : ℚ) :
    Inv (finishCloseRest s attempt code now) := by
  unfold finishCloseRest
  dsimp only
  refine Inv.same ?_ (settle_same _ attempt)
  split
  · exact h
  · split
    · exact h
    · refine Inv.same ?_ (scheduleReconnect_same _ now)
      exact h.same ⟨rfl, rfl, rfl, rfl, rfl, rfl⟩

protected theorem Inv.closeBegin (h : Inv s) : Inv (closeBegin s) ∧ (closeBegin s).heartbeatTimer.running = [] ∧
    (closeBegin s).pollTimer.running = [] := by
  have hbegin : Inv { s with
      closedByUser := true
      connectionGeneration := s.connectionGeneration + 1
      connectTimer := s.connectTimer.clear } := h.same ⟨rfl, rfl, rfl, rfl, rfl, rfl⟩
  obtain ⟨hstop, hheartbeat, hpoll⟩ := hbegin.stop
  exact ⟨hstop.same ⟨rfl, rfl, rfl, rfl, rfl, rfl⟩, hheartbeat, hpoll⟩

theorem closeSocket_keeps (s : Client) (refused : Bool) :
    (closeSocket s refused).heartbeatTimer = s.heartbeatTimer ∧
      (closeSocket s refused).pollTimer = s.pollTimer ∧ (closeSocket s refused).socket = s.socket := by
  rcases closeSocket_cases s refused with ⟨heq, -⟩ | ⟨k, -, heq⟩
  · rw [heq]
    exact ⟨rfl, rfl, rfl⟩
  · rw [heq]
    exact ⟨rfl, rfl, rfl⟩

section
variable (h : Inv s)
include h

theorem Inv.closeRest (hheld : HeldClosed s) (hheartbeat : s.heartbeatTimer.running = [])
    (hpoll : s.pollTimer.running = []) : Inv (closeRest s) :=
  (h.say_closed hheld hheartbeat hpoll).same ⟨rfl, rfl, rfl, rfl, rfl, rfl⟩

protected theorem Inv.close (refused : Bool) : Inv (close s refused) := by
  obtain ⟨hbegin, hheartbeat, hpoll⟩ := h.closeBegin
  obtain ⟨htimer, hpollTimer, hsocket⟩ := closeSocket_keeps (closeBegin s) refused
  have hinv := hbegin.closeSocket refused
  rw [← htimer] at hheartbeat
  rw [← hpollTimer] at hpoll
  unfold close
  dsimp only
  split
  · exact hinv.emit rfl fun _ => ⟨hheartbeat, hpoll⟩
  · next hfalse =>
    refine hinv.closeRest (closeSocket_held fun hrefused k hk => ?_) hheartbeat hpoll
    refine absurd ⟨?_, hrefused⟩ hfalse
    rw [hsocket, hk]
    rfl

/-! ## One event -/

protected theorem Inv.handleMessageRest (blob : Bool) : Inv (handleMessageRest s blob) := by
  unfold handleMessageRest
  split
  · exact h.same ⟨rfl, rfl, rfl, rfl, rfl, rfl⟩
  · exact h

protected theorem Inv.connectTimeout {id : ℕ} {refused : Bool}
    (hok : Orderly s (.turn (.connectTimeout id refused))) : Inv (connectTimeout s id refused) := by
  unfold connectTimeout
  split
  · exact h
  · next hid =>
    replace hid := not_not.mp hid
    have hfired : Inv { s with connectTimer := s.connectTimer.fire id } := h.same ⟨rfl, rfl, rfl, rfl, rfl, rfl⟩
    dsimp only
    split
    · exact hfired
    · next hopen =>
      -- the client says `CLOSED` before it closes the socket
      have hdone := done_same { s with connectTimer := s.connectTimer.fire id } id
      have hinv := hfired.same hdone
      have hstate : ¬(done { s with connectTimer := s.connectTimer.fire id } id).state = .opened := by
        rw [hdone.state]
        exact hopen
      have hheld : HeldClosed (closeSocket
          (done { s with connectTimer := s.connectTimer.fire id } id) refused) :=
        closeSocket_held fun hrefused => hdone.held (hok hid hopen hrefused)
      have hclosed := (hinv.closeSocket refused).say_closed hheld
      obtain ⟨htimer, hpollTimer, -⟩ := closeSocket_keeps (done { s with connectTimer := s.connectTimer.fire id } id) refused
      have hcomm : closeSocket
          { done { s with connectTimer := s.connectTimer.fire id } id with state := .closed } refused =
            { closeSocket (done { s with connectTimer := s.connectTimer.fire id } id) refused with
              state := .closed } := by
        unfold closeSocket
        dsimp only
        split
        · rfl
        · split <;> rfl
      rw [hcomm]
      apply hclosed
      · rw [htimer]
        exact hinv.heartbeat.idle hstate
      · rw [hpollTimer]
        exact hinv.poll.idle hstate

protected theorem Inv.reconnect {id : ℕ} {throws : Bool}
    (hok : Orderly s (.turn (.reconnect id throws))) : Inv (reconnect s id throws) := by
  unfold reconnect
  split
  · exact h
  · next hid =>
    replace hid := not_not.mp hid
    have hfired : Inv { s with reconnectTimer := s.reconnectTimer.fire id } :=
      h.same ⟨rfl, rfl, rfl, rfl, rfl, rfl⟩
    dsimp only
    split
    · exact hfired
    · next huser =>
      have hfalse : s.closedByUser = false := Bool.eq_false_iff.mpr huser
      exact hfired.openSocket throws (hok hid hfalse)

section
variable (hstack : s.stack = [])
include hstack

/-- The callback of a chain's timeout drops its handle. -/
theorem Inv.heartbeat_fired {id : ℕ} (hid : id ∈ s.heartbeatTimer.running) :
    Inv { s with heartbeatTimer := s.heartbeatTimer.fire id } := by
  obtain ⟨hheartbeat, hpoll⟩ := h.calm hstack
  exact h.retime hstack (hheartbeat.fire hid 0 (Nat.zero_le 1) _) hpoll

theorem Inv.poll_fired {id : ℕ} (hid : id ∈ s.pollTimer.running) :
    Inv { s with pollTimer := s.pollTimer.fire id } := by
  obtain ⟨hheartbeat, hpoll⟩ := h.calm hstack
  exact h.retime hstack hheartbeat (hpoll.fire hid 0 (Nat.zero_le 1) _)

/-- A callback that goes on with a chain is called by the turn itself. -/
theorem Inv.emit_tick {frame : Frame} (hframe : frame.stopped = false)
    (hheartbeat : Chain s.heartbeatTimer ([frame].count .heartbeat) (s.state = .opened))
    (hpoll : Chain s.pollTimer ([frame].count .poll) (s.state = .opened)) : Inv (emit s frame) := by
  refine ⟨h.others, h.held, ?_, ?_, ?_, ?_⟩
  · show Chain s.heartbeatTimer ((frame :: s.stack).count .heartbeat) _
    rw [hstack]
    exact hheartbeat
  · show Chain s.pollTimer ((frame :: s.stack).count .poll) _
    rw [hstack]
    exact hpoll
  · show ∀ frame' ∈ (frame :: s.stack).dropLast, _
    rw [hstack]
    exact fun _ hmem => absurd hmem List.not_mem_nil
  · intro frame' hmem hyes
    replace hmem : frame' ∈ frame :: s.stack := hmem
    rw [hstack] at hmem
    obtain rfl := List.mem_singleton.mp hmem
    rw [hframe] at hyes
    exact Bool.noConfusion hyes

theorem Inv.emit_heartbeat (hnil : s.heartbeatTimer.running = []) : Inv (emit s .heartbeat) := by
  refine h.emit_tick hstack rfl ⟨h.heartbeat.held, fun _ => hnil, ?_⟩ (h.calm hstack).2
  rw [hnil]
  exact Nat.le_refl 1

theorem Inv.emit_poll (hnil : s.pollTimer.running = []) : Inv (emit s .poll) := by
  refine h.emit_tick hstack rfl (h.calm hstack).1 ⟨h.poll.held, fun _ => hnil, ?_⟩
  rw [hnil]
  exact Nat.le_refl 1

theorem Inv.heartbeat_turn (id : ℕ) (canPing throws : Bool) :
    Inv (PowerWebSocketClient.heartbeat s id canPing throws) := by
  unfold PowerWebSocketClient.heartbeat
  split
  · exact h
  · next hid =>
    replace hid := not_not.mp hid
    have hfired := h.heartbeat_fired hstack hid
    have hnil := h.heartbeat.fire_running hid
    dsimp only
    split
    · split
      · exact hfired.emit_heartbeat hstack hnil
      · split
        · refine Inv.heartbeatRest ?_ hstack hnil
          exact hfired.same ⟨rfl, rfl, rfl, rfl, rfl, rfl⟩
        · exact hfired.heartbeatRest hstack hnil
    · exact hfired.heartbeatRest hstack hnil

theorem Inv.poll_turn (id : ℕ) (buffered : ℚ) :
    Inv (PowerWebSocketClient.poll s id buffered) := by
  unfold PowerWebSocketClient.poll
  split
  · exact h
  · next hid =>
    replace hid := not_not.mp hid
    have hfired := h.poll_fired hstack hid
    have hnil := h.poll.fire_running hid
    dsimp only
    split
    · exact hfired.schedulePoll hstack hnil
    · refine Inv.emit_poll ?_ hstack hnil
      exact hfired.same ⟨rfl, rfl, rfl, rfl, rfl, rfl⟩

end

protected theorem Inv.heartbeatTimeout (id : ℕ) (refused : Bool) :
    Inv (heartbeatTimeout s id refused) := by
  unfold heartbeatTimeout
  split
  · exact h
  · have hinv : Inv { s with heartbeatDeadline := s.heartbeatDeadline.fire id } :=
      h.same ⟨rfl, rfl, rfl, rfl, rfl, rfl⟩
    dsimp only
    split
    · exact hinv.clearHeartbeat.closeSocket refused
    · exact hinv.clearHeartbeat

end

theorem socketEvent_cases (s : Client) (k : ℕ) (listener : Client → Socket → Client) :
    socketEvent s k listener = s ∨ ∃ socket, s.socket = some k ∧ socketEvent s k listener = listener s socket := by
  unfold socketEvent
  cases s.sockets[k]? with
  | none => exact Or.inl rfl
  | some socket =>
    dsimp only
    split
    · next hlistens => exact Or.inr ⟨socket, hlistens.2, rfl⟩
    · exact Or.inl rfl

protected theorem Inv.socketEvent {listener : Client → Socket → Client} (h : Inv s) (k : ℕ)
    (hlistener : ∀ socket, s.socket = some k → Inv (listener s socket)) : Inv (socketEvent s k listener) := by
  rcases socketEvent_cases s k listener with heq | ⟨socket, hk, heq⟩
  · rw [heq]
    exact h
  · rw [heq]
    exact hlistener socket hk

protected theorem Inv.inboundDone (h : Inv s) : Inv (inboundDone s) := by
  unfold inboundDone
  split
  · next job jobs _ =>
    have hinv : Inv { s with inbound := some jobs } := h.same ⟨rfl, rfl, rfl, rfl, rfl, rfl⟩
    cases job with
    | frame => exact hinv
    | finishClose code => exact hinv.emit rfl fun heq => Bool.noConfusion heq
  · exact h

protected theorem Inv.turn (h : Inv s) (hstack : s.stack = []) (t : Turn) (hok : Orderly s (.turn t)) : Inv (turn s t) := by
  unfold turn
  cases t with
  | socketOpen k =>
    dsimp only
    exact h.socketEvent k fun socket _ => h.handleOpen hstack socket.attempt k
  | socketError k =>
    dsimp only
    exact h.socketEvent k fun socket _ => h.emit rfl fun heq => Bool.noConfusion heq
  | socketClose k code =>
    have hclosed := h.peerCloses k
    show Inv (socketClose s k code)
    unfold socketClose
    dsimp only
    split
    · exact hclosed
    · exact hclosed.socketEvent k fun socket hk => hclosed.handleClose (peerCloses_held hk) _ code
  | socketMessage k blob oversize =>
    dsimp only
    refine h.socketEvent k fun socket _ => ?_
    split
    · exact h.emit rfl fun heq => Bool.noConfusion heq
    · exact h.handleMessageRest blob
  | socketPong k =>
    dsimp only
    exact h.socketEvent k fun socket _ => h.same ⟨rfl, rfl, rfl, rfl, rfl, rfl⟩
  | readFails k =>
    have hclosed := h.peerCloses k
    unfold readFails
    refine hclosed.socketEvent k fun socket _ => ?_
    split
    · exact hclosed.emit rfl fun heq => Bool.noConfusion heq
    · exact hclosed
  | inbound => exact h.inboundDone
  | connectTimeout id refused => exact h.connectTimeout hok
  | reconnect id throws => exact h.reconnect hok
  | heartbeat id canPing throws => exact h.heartbeat_turn hstack id canPing throws
  | heartbeatTimeout id refused => exact h.heartbeatTimeout id refused
  | poll id buffered => exact h.poll_turn hstack id buffered

protected theorem Inv.transmit (h : Inv s) (buffered : ℚ) (dropOnBackpressure : Bool) :
    Inv (transmit s buffered dropOnBackpressure) := by
  unfold transmit
  split
  · exact h
  · split
    · exact h.same ⟨rfl, rfl, rfl, rfl, rfl, rfl⟩
    · exact h

protected theorem Inv.handlerReturns (h : Inv s) (now : ℚ) (hok : Orderly s (.handlerReturns now)) :
    Inv (handlerReturns s now) := by
  unfold handlerReturns
  cases hstack : s.stack with
  | nil => exact h
  | cons frame outer =>
    have hmem : frame ∈ s.stack := by
      rw [hstack]
      exact List.mem_cons_self
    have hheld : frame.closes = true → HeldClosed s := hok frame (by rw [hstack]; rfl)
    dsimp only
    cases frame with
    | opened attempt k => exact (h.pop hstack rfl).handleOpenRest attempt k
    | settle attempt => exact (h.pop hstack rfl).same (done_same _ attempt)
    | closing attempt code =>
      obtain ⟨hheartbeat, hpoll⟩ := h.stopped _ hmem rfl
      exact (h.pop hstack rfl).handleCloseRest (hheld rfl) hheartbeat hpoll attempt code
    | finishing attempt code => exact (h.pop hstack rfl).finishCloseRest attempt code now
    | readFailed =>
      have hinv : Inv { s with stack := outer, connectionGeneration := s.connectionGeneration + 1 } :=
        (h.pop hstack rfl).same ⟨rfl, rfl, rfl, rfl, rfl, rfl⟩
      exact hinv.handleClose (hheld rfl) none (some 1006)
    | closingByUser =>
      obtain ⟨hheartbeat, hpoll⟩ := h.stopped _ hmem rfl
      exact (h.pop hstack rfl).closeRest (hheld rfl) hheartbeat hpoll
    | received blob => exact (h.pop hstack rfl).handleMessageRest blob
    | heartbeat =>
      have hnil := h.outer_nil hstack rfl
      have hheartbeat := h.heartbeat
      have hpoll := h.poll
      rw [hstack, List.count_cons_self] at hheartbeat
      rw [hstack, List.count_cons_of_ne (by decide)] at hpoll
      have hinv : Inv { s with stack := outer } := by
        refine ⟨h.others, h.held, hheartbeat.drop_tick _, hpoll, ?_, ?_⟩
        · rw [hnil]
          exact fun _ hmem => absurd hmem List.not_mem_nil
        · rw [hnil]
          exact fun _ hmem => absurd hmem List.not_mem_nil
      exact hinv.heartbeatRest hnil hheartbeat.of_tick.1
    | poll =>
      have hnil := h.outer_nil hstack rfl
      have hheartbeat := h.heartbeat
      have hpoll := h.poll
      rw [hstack, List.count_cons_of_ne (by decide)] at hheartbeat
      rw [hstack, List.count_cons_self] at hpoll
      have hinv : Inv { s with stack := outer } := by
        refine ⟨h.others, h.held, hheartbeat, hpoll.drop_tick _, ?_, ?_⟩
        · rw [hnil]
          exact fun _ hmem => absurd hmem List.not_mem_nil
        · rw [hnil]
          exact fun _ hmem => absurd hmem List.not_mem_nil
      exact hinv.schedulePoll hnil hpoll.of_tick.1

theorem step_inv (s : Client) (e : Event) (h : Inv s) (hok : Orderly s e) : Inv (step s e) := by
  cases e with
  | connect throws => exact h.connect throws
  | close refused => exact h.close refused
  | transmit buffered dropOnBackpressure => exact h.transmit buffered dropOnBackpressure
  | handlerReturns now => exact h.handlerReturns now hok
  | turn t =>
    show Inv (if s.stack = [] then turn s t else s)
    split
    · next hstack => exact h.turn hstack t hok
    · exact h

theorem new_inv (config : Config) : Inv (new config) := by
  refine ⟨?_, ?_, Chain.new _, Chain.new _, ?_, ?_⟩
  · intro k socket hsocket
    cases hsocket
  · intro _ k hk
    cases hk
  · exact fun _ hmem => absurd hmem List.not_mem_nil
  · exact fun _ hmem => absurd hmem List.not_mem_nil

theorem Inv.atMostOne (h : Inv s) : AtMostOne s := by
  refine ⟨length_filter_le_one ?_, h.heartbeat.one, h.poll.one⟩
  have hopen : ∀ (i : ℕ) (socket : Socket), s.sockets[i]? = some socket → (!socket.closed) = true →
      s.socket = some i := by
    intro i socket hsocket hopen
    by_contra hne
    rw [h.others i socket hsocket hne] at hopen
    exact Bool.noConfusion hopen
  intro i j a b ha hb hpa hpb
  exact Option.some.inj ((hopen i a ha hpa).symm.trans (hopen j b hb hpb))

end PerformanceHelpers.PowerWebSocketClient
