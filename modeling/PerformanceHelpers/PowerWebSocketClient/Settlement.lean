import PerformanceHelpers.PowerWebSocketClient

/- The promises of `connect`. An attempt settles in the handlers of its own socket and in its
   own timeout, and the handlers are ignored once the generation has moved on: so an attempt
   is left behind exactly where the generation moves on while it is still connecting.

   `Watched` adds to a client the attempts that a `connect` started and those that have
   opened, failed or timed out. `Advances` is what a step does that stays in its generation,
   `Abandons` what one does that leaves it. -/
namespace PerformanceHelpers.PowerWebSocketClient

structure Watched where
  client : Client
  asked : List ℕ
  ended : List ℕ
  deriving DecidableEq

/-- The attempt of the `k`-th socket, if it is listened to. -/
def heardAttempt (s : Client) (k : ℕ) : List ℕ :=
  match s.sockets[k]? with
  | none => []
  | some socket => if Listens s k socket then [socket.attempt] else []

/-- The attempt that opens, fails or times out in a turn. A stream says so by its `opened`. -/
def outcome (s : Client) : Turn → List ℕ
  | .socketOpen k | .socketError k => heardAttempt s k
  | .socketClose k _ => if s.config.streams = true then [] else heardAttempt s k
  | .connectTimeout id _ => if id ∈ s.connectTimer.running ∧ s.state ≠ .opened then [id] else []
  | _ => []

def endedBy (s : Client) : Event → List ℕ
  | .turn t => if s.stack = [] then outcome s t else []
  | _ => []

/-- The attempt that a `connect` starts. -/
def askedBy (s : Client) : Event → List ℕ
  | .connect _ => if s.state = .closed then [s.settled.length] else []
  | _ => []

def watch (w : Watched) (e : Event) : Watched where
  client := step w.client e
  asked := w.asked ++ askedBy w.client e
  ended := w.ended ++ endedBy w.client e

def Watched.new (config : Config) : Watched := ⟨PowerWebSocketClient.new config, [], []⟩

/-- The attempt is the one whose socket is listened to. -/
def Heard (s : Client) (a : ℕ) : Prop :=
  ∃ k ∈ s.socket, ∃ socket ∈ s.sockets[k]?, socket.generation = s.connectionGeneration ∧ socket.attempt = a

def Frame.settles (a : ℕ) : Frame → Bool
  | .opened attempt _ | .settle attempt => decide (attempt = a)
  | .closing attempt _ | .finishing attempt _ => decide (attempt = some a)
  | _ => false

/-- The attempt has settled, or does when a handler that is under way returns. -/
def Answered (s : Client) (a : ℕ) : Prop :=
  s.settled[a]? = some true ∨ ∃ frame ∈ s.stack, frame.settles a = true

instance (s : Client) (a : ℕ) : Decidable (Heard s a) := inferInstanceAs (Decidable (∃ k ∈ s.socket, _))

instance (s : Client) (a : ℕ) : Decidable (Answered s a) := inferInstanceAs (Decidable (_ ∨ _))

/-- Every attempt of a `connect` that has opened, failed or timed out, or whose socket is not
listened to any more, is answered. -/
def NoOrphan (w : Watched) : Prop := ∀ a ∈ w.asked, (a ∈ w.ended ∨ ¬Heard w.client a) → Answered w.client a

instance (w : Watched) : Decidable (NoOrphan w) := inferInstanceAs (Decidable (∀ a ∈ w.asked, _))

/-- The generation moves on: in `close`, in `_open`, and when a stream's read has failed. -/
def MovesOn (s : Client) : Event → Prop
  | .close _ => True
  | .connect _ => s.state = .closed
  | .turn (.reconnect id _) => s.stack = [] ∧ id ∈ s.reconnectTimer.running ∧ s.closedByUser = false
  | .handlerReturns _ => s.stack.head? = some .readFailed
  | _ => False

/-- Where the generation moves on, no attempt of a `connect` is still connecting. -/
def LeavesNone (w : Watched) (e : Event) : Prop :=
  MovesOn w.client e → ∀ a ∈ w.asked, Heard w.client a → Answered w.client a

variable {s s' s'' : Client} {a : ℕ}

/-! ## Steps within a generation -/

def Socket.owner (socket : Socket) : ℕ × ℕ := (socket.generation, socket.attempt)

structure Stays (s s' : Client) : Prop where
  socket : s'.socket = s.socket
  generation : s'.connectionGeneration = s.connectionGeneration
  owners : s'.sockets.map Socket.owner = s.sockets.map Socket.owner
  timer : ∀ id ∈ s'.connectTimer.running, id ∈ s.connectTimer.running

/-- Nothing settles, and no handler is called. -/
structure Quiet (s s' : Client) : Prop extends Stays s s' where
  settled : s'.settled = s.settled
  stack : s'.stack = s.stack

structure Advances (s s' : Client) : Prop extends Stays s s' where
  length : s'.settled.length = s.settled.length
  answered : ∀ a < s.settled.length, Answered s a → Answered s' a

theorem Stays.trans (h : Stays s s') (h' : Stays s' s'') : Stays s s'' :=
  ⟨h'.socket.trans h.socket, h'.generation.trans h.generation, h'.owners.trans h.owners,
    fun id hid => h.timer id (h'.timer id hid)⟩

theorem Quiet.trans (h : Quiet s s') (h' : Quiet s' s'') : Quiet s s'' :=
  ⟨h.toStays.trans h'.toStays, h'.settled.trans h.settled, h'.stack.trans h.stack⟩

theorem Quiet.answered (h : Quiet s s') : Answered s' a ↔ Answered s a := by
  unfold Answered
  rw [h.settled, h.stack]

theorem Quiet.advances (h : Quiet s s') : Advances s s' :=
  ⟨h.toStays, congrArg List.length h.settled, fun _ _ ha => h.answered.mpr ha⟩

theorem Advances.trans (h : Advances s s') (h' : Advances s' s'') : Advances s s'' := by
  refine ⟨h.toStays.trans h'.toStays, h'.length.trans h.length, fun a ha hans => ?_⟩
  exact h'.answered a (h.length ▸ ha) (h.answered a ha hans)

theorem heard_iff : Heard s a ↔
    ∃ k ∈ s.socket, (s.sockets.map Socket.owner)[k]? = some (s.connectionGeneration, a) := by
  unfold Heard
  constructor
  · rintro ⟨k, hk, socket, hsocket, hgeneration, hattempt⟩
    refine ⟨k, hk, ?_⟩
    rw [List.getElem?_map, Option.mem_def.mp hsocket, Option.map_some, Socket.owner, hgeneration, hattempt]
  · rintro ⟨k, hk, howner⟩
    rw [List.getElem?_map, Option.map_eq_some_iff] at howner
    obtain ⟨socket, hsocket, howner⟩ := howner
    exact ⟨k, hk, socket, hsocket, congrArg Prod.fst howner, congrArg Prod.snd howner⟩

theorem Stays.heard (h : Stays s s') : Heard s' a ↔ Heard s a := by
  rw [heard_iff, heard_iff, h.socket, h.generation, h.owners]

theorem clear_subset {t : Timer} : ∀ id ∈ t.clear.running, id ∈ t.running := by
  intro id hid
  unfold Timer.clear at hid
  split at hid
  · exact hid
  · exact List.mem_of_mem_filter hid

theorem done_advances (s : Client) (attempt : ℕ) : Advances s (done s attempt) := by
  unfold done
  split
  · exact ⟨⟨rfl, rfl, rfl, fun _ h => h⟩, rfl, fun _ _ h => h⟩
  · refine ⟨⟨rfl, rfl, rfl, clear_subset⟩, List.length_set, fun a _ hans => ?_⟩
    rcases hans with hsettled | hframe
    · left
      dsimp only
      rw [List.getElem?_set]
      split
      · next heq =>
        subst heq
        have hlt := (List.getElem?_eq_some_iff.mp hsettled).1
        rw [if_pos hlt]
      · exact hsettled
    · exact .inr hframe

variable {k attempt : ℕ} {frame : Frame} {code : Option ℚ}

theorem done_answered (h : attempt < s.settled.length) : Answered (done s attempt) attempt := by
  left
  unfold done
  split
  · assumption
  · dsimp only
    rw [List.getElem?_set_self h]

theorem settle_advances (s : Client) (attempt : Option ℕ) : Advances s (settle s attempt) := by
  cases attempt with
  | none => exact ⟨⟨rfl, rfl, rfl, fun _ h => h⟩, rfl, fun _ _ h => h⟩
  | some attempt => exact done_advances s attempt

theorem emit_advances (s : Client) (frame : Frame) : Advances s (emit s frame) := by
  refine ⟨⟨rfl, rfl, rfl, fun _ h => h⟩, rfl, fun a _ hans => ?_⟩
  rcases hans with hsettled | ⟨frame', hmem, hsettles⟩
  · exact .inl hsettled
  · exact .inr ⟨frame', List.mem_cons_of_mem _ hmem, hsettles⟩

theorem emit_answered (h : frame.settles a = true) : Answered (emit s frame) a :=
  .inr ⟨frame, List.mem_cons_self, h⟩

/-! ## What is quiet -/

theorem stopPoll_quiet (s : Client) : Quiet s (stopPoll s) := ⟨⟨rfl, rfl, rfl, fun _ h => h⟩, rfl, rfl⟩

theorem clearHeartbeat_quiet (s : Client) : Quiet s (clearHeartbeat s) := ⟨⟨rfl, rfl, rfl, fun _ h => h⟩, rfl, rfl⟩

theorem schedulePoll_quiet (s : Client) : Quiet s (schedulePoll s) := by
  unfold schedulePoll
  split
  · exact ⟨⟨rfl, rfl, rfl, fun _ h => h⟩, rfl, rfl⟩
  · split <;> exact ⟨⟨rfl, rfl, rfl, fun _ h => h⟩, rfl, rfl⟩

theorem scheduleHeartbeat_quiet (s : Client) : Quiet s (scheduleHeartbeat s) := by
  unfold scheduleHeartbeat
  split <;> exact ⟨⟨rfl, rfl, rfl, fun _ h => h⟩, rfl, rfl⟩

theorem heartbeatRest_quiet (s : Client) : Quiet s (heartbeatRest s) := by
  unfold heartbeatRest
  split
  · exact scheduleHeartbeat_quiet s
  · exact ⟨⟨rfl, rfl, rfl, fun _ h => h⟩, rfl, rfl⟩

theorem scheduleReconnect_quiet (s : Client) (now : ℚ) : Quiet s (scheduleReconnect s now) := by
  unfold scheduleReconnect
  split_ifs <;> exact ⟨⟨rfl, rfl, rfl, fun _ h => h⟩, rfl, rfl⟩

theorem owners_modify (sockets : List Socket) (k : ℕ) :
    (sockets.modify k fun socket => { socket with closed := true }).map Socket.owner = sockets.map Socket.owner := by
  apply List.ext_getElem?
  intro i
  rw [List.getElem?_map, List.getElem?_map, List.getElem?_modify]
  split
  · cases sockets[i]? <;> rfl
  · cases sockets[i]? <;> rfl

theorem peerCloses_quiet (s : Client) (k : ℕ) : Quiet s (peerCloses s k) :=
  ⟨⟨rfl, rfl, owners_modify s.sockets k, fun _ h => h⟩, rfl, rfl⟩

theorem closeSocket_quiet (s : Client) (refused : Bool) : Quiet s (closeSocket s refused) := by
  unfold closeSocket
  split
  · exact ⟨⟨rfl, rfl, rfl, fun _ h => h⟩, rfl, rfl⟩
  · next k hk =>
    split
    · exact ⟨⟨rfl, rfl, rfl, fun _ h => h⟩, rfl, rfl⟩
    · exact ⟨⟨rfl, rfl, owners_modify s.sockets k, fun _ h => h⟩, rfl, rfl⟩

theorem startStreamPump_quiet (s : Client) (k : ℕ) : Quiet s (startStreamPump s k) := by
  unfold startStreamPump
  split
  · exact ⟨⟨rfl, rfl, rfl, fun _ h => h⟩, rfl, rfl⟩
  · split <;> exact ⟨⟨rfl, rfl, rfl, fun _ h => h⟩, rfl, rfl⟩

theorem handleMessageRest_quiet (s : Client) (blob : Bool) : Quiet s (handleMessageRest s blob) := by
  unfold handleMessageRest
  split <;> exact ⟨⟨rfl, rfl, rfl, fun _ h => h⟩, rfl, rfl⟩

theorem transmit_quiet (s : Client) (buffered : ℚ) (dropOnBackpressure : Bool) :
    Quiet s (transmit s buffered dropOnBackpressure) := by
  unfold transmit
  split
  · exact ⟨⟨rfl, rfl, rfl, fun _ h => h⟩, rfl, rfl⟩
  · split <;> exact ⟨⟨rfl, rfl, rfl, fun _ h => h⟩, rfl, rfl⟩

/-! ## Opening and closing -/

theorem handleOpenRest_advances (s : Client) (attempt k : ℕ) : Advances s (handleOpenRest s attempt k) := by
  unfold handleOpenRest
  dsimp only
  split
  · exact (done_advances s attempt).trans (startStreamPump_quiet _ k).advances
  · exact done_advances s attempt

theorem handleOpenRest_answered (h : attempt < s.settled.length) :
    Answered (handleOpenRest s attempt k) attempt := by
  unfold handleOpenRest
  dsimp only
  split
  · exact (startStreamPump_quiet _ k).answered.mpr (done_answered h)
  · exact done_answered h

theorem handleOpen_advances (s : Client) (attempt k : ℕ) : Advances s (handleOpen s attempt k) := by
  unfold handleOpen
  split
  · exact handleOpenRest_advances s attempt k
  · refine Advances.trans ?_ (emit_advances _ _)
    have hstate : Quiet s { s with state := .opened, reconnectAttempts := 0, reconnectStartedAt := none } :=
      ⟨⟨rfl, rfl, rfl, fun _ h => h⟩, rfl, rfl⟩
    exact ((hstate.trans (schedulePoll_quiet _)).trans (scheduleHeartbeat_quiet _)).advances

theorem handleOpen_answered (h : attempt < s.settled.length) :
    Answered (handleOpen s attempt k) attempt := by
  unfold handleOpen
  split
  · exact handleOpenRest_answered h
  · exact emit_answered (decide_eq_true rfl)

theorem finishCloseRest_advances (s : Client) (attempt : Option ℕ) (code : Option ℚ) (now : ℚ) :
    Advances s (finishCloseRest s attempt code now) := by
  unfold finishCloseRest
  refine Advances.trans ?_ (settle_advances _ attempt)
  split_ifs
  · exact ⟨⟨rfl, rfl, rfl, fun _ h => h⟩, rfl, fun _ _ h => h⟩
  · exact ⟨⟨rfl, rfl, rfl, fun _ h => h⟩, rfl, fun _ _ h => h⟩
  · refine (Quiet.trans ?_ (scheduleReconnect_quiet _ now)).advances
    exact ⟨⟨rfl, rfl, rfl, fun _ h => h⟩, rfl, rfl⟩

theorem finishCloseRest_answered {now : ℚ} (h : a < s.settled.length) :
    Answered (finishCloseRest s (some a) code now) a := by
  unfold finishCloseRest
  apply done_answered
  split_ifs
  · exact h
  · exact h
  · have hquiet : Quiet s { s with reconnectStartedAt := some (s.reconnectStartedAt.getD now) } :=
      ⟨⟨rfl, rfl, rfl, fun _ h => h⟩, rfl, rfl⟩
    rw [(hquiet.trans (scheduleReconnect_quiet _ now)).settled]
    exact h

theorem emitCloseAndReconnect_advances (s : Client) (attempt : Option ℕ) (code : Option ℚ) :
    Advances s (emitCloseAndReconnect s attempt code) := by
  unfold emitCloseAndReconnect
  split
  · refine Advances.trans ?_ (settle_advances _ attempt)
    exact ⟨⟨rfl, rfl, rfl, fun _ h => h⟩, rfl, fun _ _ h => h⟩
  · exact emit_advances s _

theorem emitCloseAndReconnect_answered (h : a < s.settled.length) :
    Answered (emitCloseAndReconnect s (some a) code) a := by
  unfold emitCloseAndReconnect
  split
  · exact done_answered h
  · exact emit_answered (decide_eq_true rfl)

theorem handleCloseRest_advances (s : Client) (attempt : Option ℕ) (code : Option ℚ) :
    Advances s (handleCloseRest s attempt code) := by
  refine Advances.trans ?_ (emitCloseAndReconnect_advances _ attempt code)
  exact ⟨⟨rfl, rfl, rfl, fun _ h => h⟩, rfl, fun _ _ h => h⟩

theorem handleCloseRest_answered (h : a < s.settled.length) :
    Answered (handleCloseRest s (some a) code) a :=
  emitCloseAndReconnect_answered h

theorem handleClose_advances (s : Client) (attempt : Option ℕ) (code : Option ℚ) :
    Advances s (handleClose s attempt code) := by
  have hquiet := (clearHeartbeat_quiet s).trans (stopPoll_quiet _)
  unfold handleClose
  dsimp only
  split
  · refine (hquiet.advances.trans ?_).trans (emit_advances _ _)
    exact ⟨⟨rfl, rfl, rfl, fun _ h => h⟩, rfl, fun _ _ h => h⟩
  · exact hquiet.advances.trans (handleCloseRest_advances _ attempt code)

theorem handleClose_answered (h : a < s.settled.length) :
    Answered (handleClose s (some a) code) a := by
  unfold handleClose
  dsimp only
  split
  · exact emit_answered (decide_eq_true rfl)
  · exact handleCloseRest_answered h

/-! ## Turns and returns -/

structure Numbered (s : Client) : Prop where
  generation : ∀ owner ∈ s.sockets.map Socket.owner, owner.1 ≤ s.connectionGeneration
  attempt : ∀ owner ∈ s.sockets.map Socket.owner, owner.2 < s.settled.length
  timer : ∀ id ∈ s.connectTimer.running, id < s.settled.length

theorem Numbered.advances (h : Numbered s) (ha : Advances s s') : Numbered s' := by
  refine ⟨?_, ?_, fun id hid => ?_⟩
  · rw [ha.owners, ha.generation]
    exact h.generation
  · rw [ha.owners, ha.length]
    exact h.attempt
  · rw [ha.length]
    exact h.timer id (ha.timer id hid)

theorem Numbered.socket (h : Numbered s) {socket : Socket} (hk : s.sockets[k]? = some socket) :
    socket.attempt < s.settled.length :=
  h.attempt socket.owner (List.mem_map_of_mem (List.mem_of_getElem? hk))

/-- A turn that stays in its generation. -/
structure Turns (s s' : Client) (ended : List ℕ) : Prop where
  advances : Advances s s'
  ended : ∀ a ∈ ended, Answered s' a

theorem Quiet.turns (h : Quiet s s') : Turns s s' [] := ⟨h.advances, fun _ ha => by cases ha⟩

theorem Advances.turns (h : Advances s s') : Turns s s' [] := ⟨h, fun _ ha => by cases ha⟩

theorem Quiet.refl (s : Client) : Quiet s s := ⟨⟨rfl, rfl, rfl, fun _ h => h⟩, rfl, rfl⟩

theorem socketEvent_turns {l : Client → Socket → Client} (h : Numbered s) (k : ℕ)
    (hadvances : ∀ socket, Advances s (l s socket))
    (hanswered : ∀ socket, socket.attempt < s.settled.length → Answered (l s socket) socket.attempt) :
    Turns s (socketEvent s k l) (heardAttempt s k) := by
  unfold socketEvent heardAttempt
  cases hk : s.sockets[k]? with
  | none => exact (Quiet.refl s).turns
  | some socket =>
    dsimp only
    split
    · refine ⟨hadvances socket, fun a ha => ?_⟩
      rw [List.mem_singleton] at ha
      rw [ha]
      exact hanswered socket (h.socket hk)
    · exact (Quiet.refl s).turns

theorem socketEvent_advances {l : Client → Socket → Client} (s : Client) (k : ℕ)
    (hadvances : ∀ socket, Advances s (l s socket)) : Advances s (socketEvent s k l) := by
  unfold socketEvent
  split
  · exact (Quiet.refl s).advances
  · split
    · exact hadvances _
    · exact (Quiet.refl s).advances

theorem heardAttempt_peerCloses (s : Client) (k : ℕ) : heardAttempt (peerCloses s k) k = heardAttempt s k := by
  unfold heardAttempt peerCloses
  dsimp only
  rw [List.getElem?_modify_eq]
  cases s.sockets[k]? <;> rfl

theorem connectTimeout_turns (h : Numbered s) (id : ℕ) (refused : Bool) :
    Turns s (connectTimeout s id refused)
      (if id ∈ s.connectTimer.running ∧ s.state ≠ .opened then [id] else []) := by
  have hfire : Quiet s { s with connectTimer := s.connectTimer.fire id } :=
    ⟨⟨rfl, rfl, rfl, fun _ h => List.mem_of_mem_filter h⟩, rfl, rfl⟩
  unfold connectTimeout
  split
  · next hid =>
    rw [if_neg fun hrunning => hid hrunning.1]
    exact (Quiet.refl s).turns
  · next hid =>
    dsimp only
    split
    · next hopen =>
      rw [if_neg fun hrunning => hrunning.2 hopen]
      exact hfire.turns
    · next hopen =>
      rw [if_pos ⟨not_not.mp hid, hopen⟩]
      have hdone := hfire.advances.trans (done_advances _ id)
      have hclosed : ∀ s : Client, Quiet s { s with state := .closed } :=
        fun s => ⟨⟨rfl, rfl, rfl, fun _ h => h⟩, rfl, rfl⟩
      have hrest := (hclosed (done { s with connectTimer := s.connectTimer.fire id } id)).trans
        (closeSocket_quiet _ refused)
      refine ⟨hdone.trans hrest.advances, fun a ha => ?_⟩
      rw [List.mem_singleton] at ha
      rw [ha]
      exact hrest.answered.mpr (done_answered (h.timer id (not_not.mp hid)))

theorem inboundDone_advances (s : Client) : Advances s (inboundDone s) := by
  unfold inboundDone
  split
  · split
    · exact ⟨⟨rfl, rfl, rfl, fun _ h => h⟩, rfl, fun _ _ h => h⟩
    · refine Advances.trans ?_ (emit_advances _ _)
      exact ⟨⟨rfl, rfl, rfl, fun _ h => h⟩, rfl, fun _ _ h => h⟩
  · exact (Quiet.refl s).advances

theorem heartbeat_advances (s : Client) (id : ℕ) (canPing throws : Bool) :
    Advances s (heartbeat s id canPing throws) := by
  have hfire : Quiet s { s with heartbeatTimer := s.heartbeatTimer.fire id } :=
    ⟨⟨rfl, rfl, rfl, fun _ h => h⟩, rfl, rfl⟩
  unfold heartbeat
  split
  · exact (Quiet.refl s).advances
  · dsimp only
    split
    · split
      · exact hfire.advances.trans (emit_advances _ _)
      · split
        · refine hfire.advances.trans (Quiet.trans ?_ (heartbeatRest_quiet _)).advances
          exact ⟨⟨rfl, rfl, rfl, fun _ h => h⟩, rfl, rfl⟩
        · exact (hfire.trans (heartbeatRest_quiet _)).advances
    · exact (hfire.trans (heartbeatRest_quiet _)).advances

theorem heartbeatTimeout_advances (s : Client) (id : ℕ) (refused : Bool) :
    Advances s (heartbeatTimeout s id refused) := by
  have hfire : Quiet s { s with heartbeatDeadline := s.heartbeatDeadline.fire id } :=
    ⟨⟨rfl, rfl, rfl, fun _ h => h⟩, rfl, rfl⟩
  unfold heartbeatTimeout
  split
  · exact (Quiet.refl s).advances
  · dsimp only
    split
    · exact ((hfire.trans (clearHeartbeat_quiet _)).trans (closeSocket_quiet _ refused)).advances
    · exact (hfire.trans (clearHeartbeat_quiet _)).advances

theorem poll_advances (s : Client) (id : ℕ) (buffered : ℚ) : Advances s (poll s id buffered) := by
  have hfire : Quiet s { s with pollTimer := s.pollTimer.fire id } :=
    ⟨⟨rfl, rfl, rfl, fun _ h => h⟩, rfl, rfl⟩
  unfold poll
  split
  · exact (Quiet.refl s).advances
  · dsimp only
    split
    · exact (hfire.trans (schedulePoll_quiet _)).advances
    · refine (hfire.advances.trans ?_).trans (emit_advances _ _)
      exact ⟨⟨rfl, rfl, rfl, fun _ h => h⟩, rfl, fun _ _ h => h⟩

theorem readFails_advances (s : Client) (k : ℕ) : Advances s (readFails s k) := by
  refine (peerCloses_quiet s k).advances.trans (socketEvent_advances _ k fun socket => ?_)
  split
  · exact emit_advances _ _
  · exact (Quiet.refl _).advances

theorem turn_turns (h : Numbered s) (t : Turn)
    (hreconnect : ∀ id throws, t = .reconnect id throws → id ∈ s.reconnectTimer.running → s.closedByUser = true) :
    Turns s (turn s t) (outcome s t) := by
  cases t with
  | socketOpen k =>
    exact socketEvent_turns (l := fun s socket => handleOpen s socket.attempt k) h k
      (fun socket => handleOpen_advances s socket.attempt k) fun socket hlt => handleOpen_answered hlt
  | socketError k =>
    exact socketEvent_turns (l := fun s socket => emit s (.settle socket.attempt)) h k
      (fun socket => emit_advances s _) fun socket hlt => emit_answered (decide_eq_true rfl)
  | socketClose k code =>
    have hpeer := (peerCloses_quiet s k).advances
    change Turns s (socketClose s k code) _
    unfold socketClose
    change Turns s (if s.config.streams = true then peerCloses s k else _)
      (if s.config.streams = true then [] else heardAttempt s k)
    split
    · exact hpeer.turns
    · rw [← heardAttempt_peerCloses]
      have hturns := socketEvent_turns (l := fun s socket => handleClose s (some socket.attempt) code)
        (h.advances hpeer) k
        (fun socket => handleClose_advances (peerCloses s k) (some socket.attempt) code)
        fun socket hlt => handleClose_answered hlt
      exact ⟨hpeer.trans hturns.advances, hturns.ended⟩
  | socketMessage k blob oversize =>
    refine Advances.turns ?_
    apply socketEvent_advances s k
    intro socket
    split
    · exact emit_advances s _
    · exact (handleMessageRest_quiet s blob).advances
  | socketPong k =>
    refine Advances.turns ?_
    apply socketEvent_advances s k
    intro socket
    exact ⟨⟨rfl, rfl, rfl, fun _ h => h⟩, rfl, fun _ _ h => h⟩
  | readFails k => exact (readFails_advances s k).turns
  | inbound => exact (inboundDone_advances s).turns
  | connectTimeout id refused => exact connectTimeout_turns h id refused
  | reconnect id throws =>
    refine Advances.turns ?_
    change Advances s (reconnect s id throws)
    unfold reconnect
    split
    · exact (Quiet.refl s).advances
    · next hid =>
      dsimp only
      rw [if_pos (hreconnect id throws rfl (not_not.mp hid))]
      exact ⟨⟨rfl, rfl, rfl, fun _ h => h⟩, rfl, fun _ _ h => h⟩
  | heartbeat id canPing throws => exact (heartbeat_advances s id canPing throws).turns
  | heartbeatTimeout id refused => exact (heartbeatTimeout_advances s id refused).turns
  | poll id buffered => exact (poll_advances s id buffered).turns

/-- What is left of a method answers its attempt. -/
theorem resume_advances (s : Client) (now : ℚ) (hframe : frame ≠ .readFailed) :
    Advances s (resume s now frame) := by
  cases frame with
  | opened attempt k => exact handleOpenRest_advances s attempt k
  | settle attempt => exact done_advances s attempt
  | closing attempt code => exact handleCloseRest_advances s attempt code
  | finishing attempt code => exact finishCloseRest_advances s attempt code now
  | readFailed => exact absurd rfl hframe
  | closingByUser => exact ⟨⟨rfl, rfl, rfl, fun _ h => h⟩, rfl, fun _ _ h => h⟩
  | received blob => exact (handleMessageRest_quiet s blob).advances
  | heartbeat => exact (heartbeatRest_quiet s).advances
  | poll => exact (schedulePoll_quiet s).advances

theorem resume_answered {now : ℚ} (h : a < s.settled.length) (hframe : frame.settles a = true) :
    Answered (resume s now frame) a := by
  cases frame with
  | opened attempt k =>
    have heq : attempt = a := of_decide_eq_true hframe
    exact heq ▸ handleOpenRest_answered (heq.symm ▸ h)
  | settle attempt =>
    have heq : attempt = a := of_decide_eq_true hframe
    exact heq ▸ done_answered (heq.symm ▸ h)
  | closing attempt code =>
    have heq : attempt = some a := of_decide_eq_true hframe
    subst heq
    exact handleCloseRest_answered h
  | finishing attempt code =>
    have heq : attempt = some a := of_decide_eq_true hframe
    subst heq
    exact finishCloseRest_answered h
  | readFailed | closingByUser | received blob | heartbeat | poll => cases hframe

theorem pop_answered {outer : List Frame} (hstack : s.stack = frame :: outer) :
    Answered s a ↔ Answered { s with stack := outer } a ∨ frame.settles a = true := by
  unfold Answered
  rw [hstack]
  dsimp only
  rw [List.exists_mem_cons_iff, or_assoc, or_comm (a := frame.settles a = true)]

theorem handlerReturns_advances (s : Client) (now : ℚ) (h : s.stack.head? ≠ some .readFailed) :
    Advances s (handlerReturns s now) := by
  unfold handlerReturns
  split
  · exact (Quiet.refl s).advances
  · next frame outer hstack =>
    have hframe : frame ≠ .readFailed := by
      rintro rfl
      exact h (by rw [hstack]; rfl)
    have hresume := resume_advances { s with stack := outer } now hframe
    refine ⟨{ hresume with }, hresume.length, fun a ha hans => ?_⟩
    rcases (pop_answered hstack).mp hans with hans | hsettles
    · exact hresume.answered a ha hans
    · exact resume_answered ha hsettles

/-! ## Steps that leave the generation -/

structure Abandons (s s' : Client) : Prop where
  answered : ∀ a < s.settled.length, (Answered s' a ↔ Answered s a)
  heard : ∀ a < s.settled.length, ¬Heard s' a
  numbered : Numbered s'
  length : s.settled.length ≤ s'.settled.length

theorem Abandons.quiet (h : Abandons s s') (hq : Quiet s' s'') : Abandons s s'' :=
  ⟨fun a ha => hq.answered.trans (h.answered a ha), fun a ha hheard => h.heard a ha (hq.heard.mp hheard),
    h.numbered.advances hq.advances, h.length.trans_eq (congrArg List.length hq.settled).symm⟩

theorem Quiet.abandons (hq : Quiet s s') (h : Abandons s' s'') : Abandons s s'' := by
  have hlength := congrArg List.length hq.settled
  refine ⟨fun a ha => ?_, fun a ha => h.heard a (hlength ▸ ha), h.numbered, hlength ▸ h.length⟩
  exact (h.answered a (hlength ▸ ha)).trans hq.answered

theorem emit_answered_iff (hframe : frame.settles a = false) : Answered (emit s frame) a ↔ Answered s a := by
  unfold Answered emit
  dsimp only
  rw [List.exists_mem_cons_iff, hframe]
  simp

protected theorem Abandons.emit (h : Abandons s s') (hframe : ∀ a < s.settled.length, frame.settles a = false) :
    Abandons s (emit s' frame) :=
  ⟨fun a ha => (emit_answered_iff (hframe a ha)).trans (h.answered a ha),
    fun a ha hheard => h.heard a ha ((emit_advances s' frame).heard.mp hheard),
    h.numbered.advances (emit_advances s' frame), h.length⟩

theorem moved_abandons (h : Numbered s) :
    Abandons s { s with connectionGeneration := s.connectionGeneration + 1 } := by
  refine ⟨fun a _ => Iff.rfl, fun a _ hheard => ?_, ⟨fun owner howner => ?_, h.attempt, h.timer⟩, le_rfl⟩
  · obtain ⟨k, -, howner⟩ := heard_iff.mp hheard
    have hle := h.generation _ (List.mem_of_getElem? howner)
    dsimp only at hle
    omega
  · exact (h.generation owner howner).trans (Nat.le_succ _)

theorem close_abandons (h : Numbered s) (refused : Bool) : Abandons s (close s refused) := by
  have hbegin : Quiet { s with connectionGeneration := s.connectionGeneration + 1 } (closeBegin s) :=
    ⟨⟨rfl, rfl, rfl, clear_subset⟩, rfl, rfl⟩
  have hclosed := (moved_abandons h).quiet (hbegin.trans (closeSocket_quiet _ refused))
  unfold close
  dsimp only
  split
  · exact hclosed.emit fun _ _ => rfl
  · exact hclosed.quiet ⟨⟨rfl, rfl, rfl, fun _ h => h⟩, rfl, rfl⟩

theorem handleClose_none : Answered (handleClose s none code) a ↔ Answered s a := by
  have hquiet := (clearHeartbeat_quiet s).trans (stopPoll_quiet _)
  unfold handleClose
  dsimp only
  split
  · exact (emit_answered_iff rfl).trans hquiet.answered
  · unfold handleCloseRest emitCloseAndReconnect
    split
    · exact hquiet.answered
    · exact (emit_answered_iff rfl).trans hquiet.answered

theorem readFailed_abandons (h : Numbered s) (now : ℚ) (hstack : s.stack.head? = some .readFailed) :
    Abandons s (handlerReturns s now) := by
  obtain ⟨outer, hstack⟩ := List.head?_eq_some_iff.mp hstack
  have hmoved := moved_abandons (s := { s with stack := outer }) ⟨h.generation, h.attempt, h.timer⟩
  have hclose := handleClose_advances { s with stack := outer, connectionGeneration := s.connectionGeneration + 1 } none
    (some 1006)
  have hreturns : handlerReturns s now =
      handleClose { s with stack := outer, connectionGeneration := s.connectionGeneration + 1 } none (some 1006) := by
    unfold handlerReturns
    rw [hstack]
    rfl
  have hpop : ∀ a, Answered { s with stack := outer } a ↔ Answered s a := by
    intro a
    rw [pop_answered hstack]
    simp [Frame.settles]
  rw [hreturns]
  refine ⟨fun a ha => ?_, fun a ha hheard => ?_, hmoved.numbered.advances hclose, hclose.length.ge⟩
  · exact handleClose_none.trans ((hmoved.answered a ha).trans (hpop a))
  · exact hmoved.heard a ha (hclose.heard.mp hheard)

structure Opens (s s' : Client) : Prop extends Abandons s s' where
  length_eq : s'.settled.length = s.settled.length + 1
  attempt : Heard s' s.settled.length ∨ Answered s' s.settled.length

theorem openSocket_opens (h : Numbered s) (throws : Bool) : Opens s (openSocket s throws) := by
  have hold : ∀ {a}, a < s.settled.length → (s.settled ++ [false])[a]? = s.settled[a]? :=
    fun ha => List.getElem?_append_left ha
  unfold openSocket
  dsimp only
  split
  · -- the constructor throws: the socket that is held belongs to the generation before
    refine ⟨⟨fun a ha => ?_, fun a ha hheard => ?_, ⟨fun owner howner => ?_, fun owner howner => ?_, fun id hid => ?_⟩,
      ?_⟩, ?_, ?_⟩
    · rw [emit_answered_iff (by simp [Frame.settles]; omega)]
      unfold Answered
      dsimp only
      rw [hold ha]
    · exact (moved_abandons h).heard a ha hheard
    · exact (h.generation owner howner).trans (Nat.le_succ _)
    · exact (h.attempt owner howner).trans_le (by simp [emit])
    · exact (h.timer id hid).trans_le (by simp [emit])
    · simp [emit]
    · simp [emit]
    · exact .inr (emit_answered (decide_eq_true rfl))
  · have hopened : Opens s { s with
        settled := s.settled ++ [false]
        state := .connecting
        connectionGeneration := s.connectionGeneration + 1
        sockets := s.sockets ++ [⟨s.connectionGeneration + 1, s.settled.length, false⟩]
        socket := some s.sockets.length
        writer := if s.config.streams = true then s.config.writable else s.writer } := by
      have hsocket : ∀ a, Heard { s with
          settled := s.settled ++ [false]
          state := .connecting
          connectionGeneration := s.connectionGeneration + 1
          sockets := s.sockets ++ [⟨s.connectionGeneration + 1, s.settled.length, false⟩]
          socket := some s.sockets.length
          writer := if s.config.streams = true then s.config.writable else s.writer } a ↔ a = s.settled.length := by
        intro a
        unfold Heard
        dsimp only
        simp [eq_comm]
      refine ⟨⟨fun a ha => ?_, fun a ha hheard => ?_, ⟨fun owner howner => ?_, fun owner howner => ?_, fun id hid => ?_⟩,
        ?_⟩, ?_, .inl ((hsocket _).mpr rfl)⟩
      · unfold Answered
        dsimp only
        rw [hold ha]
      · have heq := (hsocket a).mp hheard
        omega
      · rw [List.map_append, List.mem_append] at howner
        rcases howner with howner | howner
        · exact (h.generation owner howner).trans (Nat.le_succ _)
        · rw [List.map_singleton, List.mem_singleton] at howner
          rw [howner]
          exact le_rfl
      · rw [List.map_append, List.mem_append] at howner
        dsimp only
        rw [List.length_append, List.length_singleton]
        rcases howner with howner | howner
        · exact (h.attempt owner howner).trans (Nat.lt_succ_self _)
        · rw [List.map_singleton, List.mem_singleton] at howner
          rw [howner]
          exact Nat.lt_succ_self _
      · dsimp only
        rw [List.length_append]
        exact (h.timer id hid).trans_le (Nat.le_add_right _ _)
      · dsimp only
        rw [List.length_append]
        exact Nat.le_add_right _ _
      · dsimp only
        rw [List.length_append, List.length_singleton]
    split
    · have hnumbered := hopened.numbered
      refine ⟨⟨hopened.answered, hopened.heard, ⟨hnumbered.generation, hnumbered.attempt, fun id hid => ?_⟩,
        hopened.length⟩, hopened.length_eq, hopened.attempt⟩
      rcases List.mem_append.mp hid with hid | hid
      · exact hnumbered.timer id hid
      · rw [List.mem_singleton] at hid
        rw [hid, hopened.length_eq]
        exact Nat.lt_succ_self _
    · exact hopened

/-! ## Runs -/

/-- A step that stays in its generation. -/
theorem step_turns (h : Numbered s) {e : Event} (hmoves : ¬MovesOn s e) :
    Turns s (step s e) (endedBy s e) ∧ askedBy s e = [] := by
  cases e with
  | connect throws =>
    have hopen : ¬s.state = .closed := hmoves
    refine ⟨?_, if_neg hopen⟩
    have hbusy : s.state = .connecting ∨ s.state = .opened := by
      cases hstate : s.state with
      | connecting => exact .inl rfl
      | opened => exact .inr rfl
      | closed => exact absurd hstate hopen
    change Turns s (connect s throws) []
    unfold connect
    rw [if_pos hbusy]
    exact (Quiet.refl s).turns
  | close refused => exact absurd trivial hmoves
  | transmit buffered dropOnBackpressure => exact ⟨(transmit_quiet s buffered dropOnBackpressure).turns, rfl⟩
  | handlerReturns now => exact ⟨(handlerReturns_advances s now hmoves).turns, rfl⟩
  | turn t =>
    refine ⟨?_, rfl⟩
    unfold step endedBy
    dsimp only
    split
    · next hstack =>
      apply turn_turns h t
      intro id throws ht hid
      subst ht
      by_contra huser
      exact hmoves ⟨hstack, hid, Bool.eq_false_iff.mpr huser⟩
    · exact (Quiet.refl s).turns

/-- A step that leaves the generation. -/
theorem step_abandons (h : Numbered s) {e : Event} (hmoves : MovesOn s e) :
    Abandons s (step s e) ∧ endedBy s e = [] ∧
      (askedBy s e = [] ∨ askedBy s e = [s.settled.length] ∧ Opens s (step s e)) := by
  cases e with
  | connect throws =>
    have hclosed : s.state = .closed := hmoves
    have hquiet : Quiet s { s with closedByUser := false } := ⟨⟨rfl, rfl, rfl, fun _ h => h⟩, rfl, rfl⟩
    have hopens := openSocket_opens (h.advances hquiet.advances) throws
    have hconnect : connect s throws = openSocket { s with closedByUser := false } throws := by
      unfold connect
      rw [if_neg (by rw [hclosed]; decide)]
    have hopens' : Opens s (connect s throws) := by
      rw [hconnect]
      exact ⟨hquiet.abandons hopens.toAbandons, hopens.length_eq, hopens.attempt⟩
    exact ⟨hopens'.toAbandons, rfl, .inr ⟨if_pos hclosed, hopens'⟩⟩
  | close refused => exact ⟨close_abandons h refused, rfl, .inl rfl⟩
  | transmit buffered dropOnBackpressure => exact absurd hmoves id
  | handlerReturns now => exact ⟨readFailed_abandons h now hmoves, rfl, .inl rfl⟩
  | turn t =>
    cases t with
    | reconnect id throws =>
      obtain ⟨hstack, hid, huser⟩ := hmoves
      have hquiet : Quiet s { s with reconnectTimer := s.reconnectTimer.fire id } :=
        ⟨⟨rfl, rfl, rfl, fun _ h => h⟩, rfl, rfl⟩
      have hstep : step s (.turn (.reconnect id throws)) =
          openSocket { s with reconnectTimer := s.reconnectTimer.fire id } throws := by
        change (if s.stack = [] then reconnect s id throws else s) = _
        rw [if_pos hstack]
        unfold reconnect
        rw [if_neg (not_not.mpr hid)]
        dsimp only
        rw [if_neg (by rw [huser]; decide)]
      rw [hstep]
      exact ⟨hquiet.abandons (openSocket_opens (h.advances hquiet.advances) throws).toAbandons, if_pos hstack, .inl rfl⟩
    | _ => exact absurd hmoves id

structure Counted (w : Watched) : Prop where
  numbered : Numbered w.client
  asked : ∀ a ∈ w.asked, a < w.client.settled.length
  ended : ∀ a ∈ w.ended, a < w.client.settled.length

theorem heardAttempt_lt (h : Numbered s) : ∀ a ∈ heardAttempt s k, a < s.settled.length := by
  intro a ha
  unfold heardAttempt at ha
  cases hk : s.sockets[k]? with
  | none =>
    rw [hk] at ha
    cases ha
  | some socket =>
    rw [hk] at ha
    dsimp only at ha
    split at ha
    · rw [List.mem_singleton] at ha
      exact ha ▸ h.socket hk
    · cases ha

theorem outcome_lt (h : Numbered s) (t : Turn) : ∀ a ∈ outcome s t, a < s.settled.length := by
  intro a ha
  cases t with
  | socketOpen k | socketError k => exact heardAttempt_lt h a ha
  | socketClose k code =>
    change a ∈ (if s.config.streams = true then [] else heardAttempt s k) at ha
    split at ha
    · cases ha
    · exact heardAttempt_lt h a ha
  | connectTimeout id refused =>
    change a ∈ (if id ∈ s.connectTimer.running ∧ s.state ≠ .opened then [id] else []) at ha
    split at ha
    · next hid =>
      rw [List.mem_singleton] at ha
      exact ha ▸ h.timer id hid.1
    · cases ha
  | _ => cases ha

theorem endedBy_lt (h : Numbered s) (e : Event) : ∀ a ∈ endedBy s e, a < s.settled.length := by
  intro a ha
  cases e with
  | turn t =>
    change a ∈ (if s.stack = [] then outcome s t else []) at ha
    split at ha
    · exact outcome_lt h t a ha
    · cases ha
  | _ => cases ha

theorem watch_counted (w : Watched) (e : Event) (h : Counted w) : Counted (watch w e) := by
  have hended := endedBy_lt h.numbered e
  have hall : ∀ n, w.client.settled.length ≤ n → (∀ a ∈ askedBy w.client e, a < n) →
      (∀ a ∈ w.asked ++ askedBy w.client e, a < n) ∧ ∀ a ∈ w.ended ++ endedBy w.client e, a < n := by
    intro n hn hnew
    refine ⟨fun a ha => ?_, fun a ha => ?_⟩
    · rcases List.mem_append.mp ha with ha | ha
      · exact (h.asked a ha).trans_le hn
      · exact hnew a ha
    · rcases List.mem_append.mp ha with ha | ha
      · exact (h.ended a ha).trans_le hn
      · exact (hended a ha).trans_le hn
  by_cases hmoves : MovesOn w.client e
  · obtain ⟨habandons, -, hasked⟩ := step_abandons h.numbered hmoves
    have hnew : ∀ a ∈ askedBy w.client e, a < (step w.client e).settled.length := by
      intro a ha
      rcases hasked with hnone | ⟨hone, hopens⟩
      · rw [hnone] at ha
        cases ha
      · rw [hone, List.mem_singleton] at ha
        rw [ha, hopens.length_eq]
        exact Nat.lt_succ_self _
    exact ⟨habandons.numbered, (hall _ habandons.length hnew).1, (hall _ habandons.length hnew).2⟩
  · obtain ⟨hturns, hasked⟩ := step_turns h.numbered hmoves
    have hnew : ∀ a ∈ askedBy w.client e, a < (step w.client e).settled.length := by
      intro a ha
      rw [hasked] at ha
      cases ha
    have hlength := hturns.advances.length.ge
    exact ⟨h.numbered.advances hturns.advances, (hall _ hlength hnew).1, (hall _ hlength hnew).2⟩

theorem watch_noOrphan (w : Watched) (e : Event) (h : Counted w) (hw : NoOrphan w) :
    NoOrphan (watch w e) ↔ LeavesNone w e := by
  constructor
  · intro hw' hmoves a ha hheard
    obtain ⟨habandons, -, -⟩ := step_abandons h.numbered hmoves
    have hlt := h.asked a ha
    exact (habandons.answered a hlt).mp (hw' a (List.mem_append_left _ ha) (.inr (habandons.heard a hlt)))
  · intro hok a ha hover
    change Answered (step w.client e) a
    change a ∈ w.ended ++ endedBy w.client e ∨ ¬Heard (step w.client e) a at hover
    by_cases hmoves : MovesOn w.client e
    · obtain ⟨habandons, hended, hasked⟩ := step_abandons h.numbered hmoves
      rw [hended, List.append_nil] at hover
      have hold : a ∈ w.asked → Answered (step w.client e) a := by
        intro ha
        apply (habandons.answered a (h.asked a ha)).mpr
        by_cases hheard : Heard w.client a
        · exact hok hmoves a ha hheard
        · exact hw a ha (.inr hheard)
      rcases List.mem_append.mp ha with ha | ha
      · exact hold ha
      · rcases hasked with hnone | ⟨hone, hopens⟩
        · rw [hnone] at ha
          cases ha
        · rw [hone, List.mem_singleton] at ha
          subst ha
          rcases hover with hmem | hunheard
          · exact absurd (h.ended _ hmem) (lt_irrefl _)
          · exact hopens.attempt.resolve_left hunheard
    · obtain ⟨hturns, hasked⟩ := step_turns h.numbered hmoves
      change a ∈ w.asked ++ askedBy w.client e at ha
      rw [hasked, List.append_nil] at ha
      have hlt := h.asked a ha
      rcases hover with hmem | hunheard
      · rcases List.mem_append.mp hmem with hmem | hmem
        · exact hturns.advances.answered a hlt (hw a ha (.inl hmem))
        · exact hturns.ended a hmem
      · have hunheard' : ¬Heard w.client a := fun hheard => hunheard (hturns.advances.heard.mpr hheard)
        exact hturns.advances.answered a hlt (hw a ha (.inr hunheard'))

theorem new_counted (config : Config) : Counted (Watched.new config) := by
  refine ⟨⟨?_, ?_, ?_⟩, ?_, ?_⟩
  all_goals
    intro a ha
    cases ha

/-- In a run, an attempt of a `connect` that is not connecting any more is answered at every
point, exactly where no `close`, no reconnect timer, no further `connect` and no failed read of
a stream comes while one is connecting. -/
theorem connect_settles_iff (config : Config) (es : List Event) :
    Always watch NoOrphan (Watched.new config) es ↔ Meets watch LeavesNone (Watched.new config) es := by
  have hstart : NoOrphan (Watched.new config) := by
    intro a ha
    cases ha
  exact always_iff_meets watch_counted watch_noOrphan (new_counted config) hstart

/-- The owner closes a client that is connecting: its promise stays pending. -/
theorem close_orphans_connect :
    ¬Always watch NoOrphan (Watched.new ⟨false, false, false, 10000, 0, 0, 0, 0, true, none, none, [], false⟩)
      [.connect false, .close false] := by
  intro h
  exact absurd h.last (by decide +kernel)

end PerformanceHelpers.PowerWebSocketClient
