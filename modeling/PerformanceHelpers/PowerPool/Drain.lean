import PerformanceHelpers.PowerPool.Workers

/- `drain` and the idle notification of a `PowerPool` (`src/helpers/powerPool.js`:
   `drain`, `_emitIdle`, `_updateIdleState`; `src/helpers/powerEventBus.js`: `on`, `off`,
   `emit`).

   The functions a notification calls may call the pool. It is therefore cut where a
   function of the user's runs: what is left of it is a `Frame`, and the frames of the
   calls under way are a stack. Whatever such a function does are the events that come
   before the next `resume` takes the stack up again. `_updateIdleState` is the last thing
   each method does, but for `stopThePress`, which is cut there, and a worker's message,
   which is cut where the pool's `onmessage` is called.

   What `onProgress` is told is left out, with listeners of wildcards and weak ones.

   What is proved:
     1. `Eases.step` — nothing but a post makes a pool busy that rests, and a pool that is
        reported idle rests.
     2. `call_returns` — a call during which the user's functions do nothing leaves the pool
        as the pool's own machine does.
     3. `drains_settle` — in every run in which no post and no drain leaves the pool busy
        while a notification has a waiting drain to call, and no drain finds the bus at its
        limit, a drain is resolved only while the pool rests, no drain is settled twice and
        `_drainWaiters` counts those that wait. -/
namespace PerformanceHelpers.PowerPool

/-! ## The listeners of one event -/

inductive Subscriber where
  | user (id : ℕ)
  | drain (n : ℕ)
  deriving DecidableEq, Repr

/-- What a bus keeps for one event: every bucket there has been, and which of them the
map holds. -/
structure Channel where
  buckets : List (List Subscriber) := []
  current : Option ℕ := none
  deriving DecidableEq

namespace Channel

variable (ch : Channel)

def members (k : ℕ) : List Subscriber := ch.buckets.getD k []

/-- `bucket.values()`, of the bucket in the map. -/
def values : List Subscriber := ch.current.elim [] ch.members

/-- `on` throws: the bucket is at `maxListeners`. -/
def Full (maxListeners : ℕ) : Prop := 0 < maxListeners ∧ maxListeners < ch.values.length + 1

instance (maxListeners : ℕ) : Decidable (ch.Full maxListeners) := inferInstanceAs (Decidable (_ ∧ _))

/-- `on`, where it does not throw. -/
def on (fn : Subscriber) : Channel :=
  match ch.current with
  | none => { buckets := ch.buckets ++ [[fn]], current := some ch.buckets.length }
  | some k =>
    { ch with buckets := ch.buckets.modify k fun fns => if fn ∈ fns then fns else fns ++ [fn] }

/-- `store.delete(event)`, where a bucket is empty. -/
def drop (k : ℕ) : Channel := if ch.members k = [] then { ch with current := none } else ch

def off (fn : Subscriber) : Channel :=
  match ch.current with
  | none => ch
  | some k => { ch with buckets := ch.buckets.modify k fun fns => fns.erase fn }.drop k

end Channel

/-! ## The pool and its drains -/

/-- How a drain's promise is settled: with `getStats()`, of which the active tasks and the
length of the queue are kept here, or with an error. -/
inductive DrainEnd where
  | resolved (activeTasks queueLength : ℕ)
  | aborted (signal : ℕ)
  | timedOut
  | tooManyWaiters
  | exceedsMaxListeners
  deriving DecidableEq, Repr

/-- `drain`'s options. -/
structure DrainOptions where
  signal : Option ℕ := none
  timeout : Number := .nan
  onProgress : Bool := false
  deriving DecidableEq

/-- Whether `timeout` sets a timer. -/
def DrainOptions.timed (o : DrainOptions) : Bool :=
  match o.timeout with
  | .finite q => 0 < q && ⌊q⌋ ≠ 0
  | .infinity | .negInfinity | .nan => false

/-- A drain that has not been released: its number, the signal it listens on, whether its
timer is set, and whether it is told of progress. -/
structure Wait where
  drain : ℕ
  signal : Option ℕ
  timer : Bool
  progress : Bool := false
  deriving DecidableEq

inductive Frame (V : Type) where
  /-- `_emitIdle`: the handlers and the `'message'` listeners run, and `emit('idle')` is next. -/
  | handlers
  /-- `emit('idle')`: the bucket, and those of its values that are still to be called. -/
  | listeners (bucket : ℕ) (rest : List Subscriber)
  /-- `worker.onmessage`: the pool's `onmessage` runs, and `_updateIdleState` is next. -/
  | message
  /-- `stopThePress`: the pool has been reset, and the message is still to be posted. -/
  | stopThePress (recreate : Bool) (m : Message V) (tr : TransferList) (o : PostOptions)
      (detached : List ℕ)

/-- A pool with its `'idle'` and `'drain:progress'` listeners, the calls under way, and the
drains that have been asked for. -/
structure DrainingPool (V : Type) where
  pool : Pool V
  maxDrainWaiters : ℕ := 100
  maxListeners : ℕ := 0
  idle : Channel := {}
  progress : Channel := {}
  frames : List (Frame V) := []
  asked : ℕ := 0
  drainWaiters : ℤ := 0
  waits : List Wait := []
  settlements : List (ℕ × DrainEnd) := []

/-- `allIdle`. -/
def AllIdle {V : Type} (c : Pool V) : Prop := c.activeTasks = 0 ∧ c.queue = []

instance {V : Type} (c : Pool V) : Decidable (AllIdle c) :=
  decidable_of_iff (c.activeTasks = 0 ∧ c.queue.isEmpty = true) (by simp [AllIdle])

/-- What `worker.onmessage` does before it calls the pool's `onmessage`. -/
def Pool.countMessage {V : Type} (c : Pool V) (W : World) (T : ObjectText V) (id : ℕ)
    (correlationId : Option String) (duration : Option ℚ) : Pool V :=
  (((c.countReply id).settleReply correlationId).recordLatency id duration).inlineDrain W T id

/-- What `stopThePress` does after the pool has been reset. -/
def Pool.postAfterReset {V : Type} (c : Pool V) (W : World) (T : ObjectText V) (recreate : Bool)
    (m : Message V) (tr : TransferList) (o : PostOptions) (detached : List ℕ) : Pool V :=
  if recreate then (c.postMessageInner W T m tr o detached).1
  else
    (c.enqueueOrReject (prepareForTransfer T c.messageCodec m tr o.zeroCopy) none
      (c.uncheckedDeadline o) o { originOf m tr o none with route := .stopThePress }).1

/-- What happens to a pool and its drains: a call of another of its methods, or something
its workers or timers do; a call that goes on; a drain, and its timer; and a listener of the
user's that is added to a channel, or removed. -/
inductive DrainEvent (V : Type) where
  | pool (e : Event V)
  | resume
  | drain (o : DrainOptions)
  | timeout (n : ℕ)
  | addEventListener (idle : Bool) (id : ℕ)
  | removeEventListener (idle : Bool) (id : ℕ)

namespace DrainingPool

variable {V : Type} (W : World) (T : ObjectText V) (s : DrainingPool V)

def waiting : List ℕ := (List.range s.asked).filter fun n => n ∉ s.settlements.map Prod.fst

/-- `resolve` or `reject`: a promise that is settled stays so. -/
def settle (n : ℕ) (e : DrainEnd) : DrainingPool V :=
  if n ∈ s.settlements.map Prod.fst then s else { s with settlements := s.settlements ++ [(n, e)] }

def release (n : ℕ) : DrainingPool V :=
  match s.waits.find? (·.drain = n) with
  | none => s
  | some w =>
    { s with
      waits := s.waits.filter (·.drain ≠ n)
      drainWaiters := s.drainWaiters - 1
      idle := s.idle.off (.drain n)
      progress := if w.progress then s.progress.off (.drain n) else s.progress }

def onIdle (n : ℕ) : DrainingPool V :=
  (s.release n).settle n (.resolved s.pool.activeTasks s.pool.queue.length)

def onAbort (signal n : ℕ) : DrainingPool V := (s.release n).settle n (.aborted signal)

def onTimeout (n : ℕ) : DrainingPool V := (s.release n).settle n .timedOut

def settledAtOnce (o : DrainOptions) : Option DrainEnd :=
  match o.signal.filter (· ∈ s.pool.aborted) with
  | some signal => some (.aborted signal)
  | none =>
    if AllIdle s.pool then some (.resolved s.pool.activeTasks s.pool.queue.length)
    else if s.maxDrainWaiters ≤ s.drainWaiters then some .tooManyWaiters
    else none

/-- The executor of a drain's promise. A listener that `on` turns down is an error of the
executor's, which rejects the promise. -/
def wait (n : ℕ) (o : DrainOptions) : DrainingPool V :=
  let w : Wait := { drain := n, signal := o.signal, timer := o.timed }
  let s := { s with drainWaiters := s.drainWaiters + 1 }
  if s.idle.Full s.maxListeners then
    { s with waits := s.waits ++ [w] }.settle n .exceedsMaxListeners
  else
    let s := { s with idle := s.idle.on (.drain n) }
    if o.onProgress = false then { s with waits := s.waits ++ [w] }
    else if s.progress.Full s.maxListeners then
      { s with waits := s.waits ++ [w] }.settle n .exceedsMaxListeners
    else
      { s with
        waits := s.waits ++ [{ w with progress := true }]
        progress := s.progress.on (.drain n) }

def drain (o : DrainOptions) : DrainingPool V :=
  let s' := { s with asked := s.asked + 1 }
  match s.settledAtOnce o with
  | some e => s'.settle s.asked e
  | none => s'.wait s.asked o

/-- A method has left the pool so, and called the idle handlers if it has found it idle
anew: `_isIdle` is set by `_emitIdle` alone. -/
def left (c : Pool V) : DrainingPool V :=
  { s with
    pool := c
    frames := if s.pool.isIdle = false ∧ c.isIdle = true then .handlers :: s.frames else s.frames }

/-- The `'abort'` listeners of a signal are called. -/
def abort (signal : ℕ) : DrainingPool V :=
  if signal ∈ s.pool.aborted then s
  else
    ((s.waits.filter (·.signal = some signal)).map (·.drain)).foldl (fun s n => s.onAbort signal n)
      (s.left (s.pool.abort signal))

/-- An event of the pool, up to the first function of the user's that it calls. -/
def call : Event V → DrainingPool V
  | .abort signal => s.abort signal
  | .stopThePress recreate m tr o detached =>
    { s with frames := .stopThePress recreate m tr o detached :: s.frames }.left
      (s.pool.resetPool W recreate)
  | .message id (.data ready correlationId duration) =>
    if Counts s.pool id (.data ready correlationId duration) then
      { s with
        pool := s.pool.countMessage W T id correlationId duration
        frames := .message :: s.frames }
    else s.left (step W T s.pool (.message id (.data ready correlationId duration)))
  | e => s.left (step W T s.pool e)

/-- A function of the user's returns, and the call it was called from goes on. -/
def resume : DrainingPool V :=
  match s.frames with
  | [] => s
  | .handlers :: frames =>
    match s.idle.current.filter fun k => s.idle.members k ≠ [] with
    | none => { s with frames }
    | some k => { s with frames := .listeners k (s.idle.members k) :: frames }
  | .listeners k [] :: frames => { s with frames, idle := s.idle.drop k }
  | .listeners k (.user _ :: rest) :: frames => { s with frames := .listeners k rest :: frames }
  | .listeners k (.drain n :: rest) :: frames =>
    { s with frames := .listeners k rest :: frames }.onIdle n
  | .message :: frames => { s with frames }.left s.pool.updateIdleState
  | .stopThePress recreate m tr o detached :: frames =>
    { s with frames }.left (s.pool.postAfterReset W T recreate m tr o detached)

def timeout (n : ℕ) : DrainingPool V :=
  if s.waits.any fun w => w.drain = n && w.timer then s.onTimeout n else s

/-- A step of the machine. -/
def step : DrainEvent V → DrainingPool V
  | .pool e => s.call W T e
  | .resume => s.resume W T
  | .drain o => s.drain o
  | .timeout n => s.timeout n
  | .addEventListener idle id =>
    if idle then
      if s.idle.Full s.maxListeners then s else { s with idle := s.idle.on (.user id) }
    else if s.progress.Full s.maxListeners then s
    else { s with progress := s.progress.on (.user id) }
  | .removeEventListener idle id =>
    if idle then { s with idle := s.idle.off (.user id) }
    else { s with progress := s.progress.off (.user id) }

/-- A pool as its constructor leaves it. -/
def new (config : Config) (minSize maxSize initial sequence maxDrainWaiters maxListeners : ℕ) :
    DrainingPool V :=
  { pool := .new W config minSize maxSize initial sequence, maxDrainWaiters, maxListeners }

end DrainingPool

/-! ## What makes a pool busy -/

structure Sheds {V : Type} (c c' : Pool V) : Prop where
  isIdle : c'.isIdle = c.isIdle
  activeTasks : c'.activeTasks ≤ c.activeTasks
  queue : c.queue = [] → c'.queue = []

structure Eases {V : Type} (c c' : Pool V) : Prop where
  rests : AllIdle c → AllIdle c'
  reports : c'.isIdle = true → c.isIdle = true ∨ AllIdle c'

section
variable {V : Type} {W : World} {T : ObjectText V} {c c' c'' : Pool V}

namespace Sheds

theorem refl (c : Pool V) : Sheds c c := ⟨rfl, le_rfl, id⟩

theorem trans (h : Sheds c c') (h' : Sheds c' c'') : Sheds c c'' where
  isIdle := h'.isIdle.trans h.isIdle
  activeTasks := h'.activeTasks.trans h.activeTasks
  queue := h'.queue ∘ h.queue

theorem foldl {α : Type} {f : Pool V → α → Pool V} (hf : ∀ c x, Sheds c (f c x)) (xs : List α)
    (c : Pool V) : Sheds c (xs.foldl f c) := by
  induction xs generalizing c with
  | nil => exact refl c
  | cons x xs ih => exact (hf c x).trans (ih (f c x))

section
variable (c : Pool V)

theorem cleanup (key : String) (s : Settlement) :
    Sheds c (c.cleanupPendingResponse key s) := by
  rw [cleanupPendingResponse_eq]
  exact ⟨rfl, le_rfl, id⟩

theorem rejectAllPending (error : String) : Sheds c (c.rejectAllPending error) :=
  (foldl (fun c key => cleanup c key (.rejected error)) (c.pending.map (·.key)) c).trans
    ⟨rfl, le_rfl, id⟩

theorem updateWorker (id : ℕ) (f : Worker → Worker) : Sheds c (c.updateWorker id f) :=
  ⟨rfl, le_rfl, fun h => h⟩

theorem decrementActiveTasks (n : ℕ) : Sheds c (c.decrementActiveTasks n) := by
  obtain ⟨busySince, busyTimeMs, h⟩ := decrementActiveTasks_eq c n
  rw [h]
  exact ⟨rfl, Nat.sub_le _ _, id⟩

theorem terminateWorker (id : ℕ) (reason : String) :
    Sheds c (c.terminateWorker id reason) := by
  unfold Pool.terminateWorker
  split
  · exact refl c
  · next w _ =>
    have hcounted : Sheds c (if 0 < w.tasks then c.decrementActiveTasks w.tasks else c) := by
      split
      · exact decrementActiveTasks c w.tasks
      · exact refl c
    exact (hcounted.trans (updateWorker _ id _)).trans (foldl (fun c key => cleanup c key _) _ _)

theorem retire (reason : String) (id : ℕ) : Sheds c (c.retire reason id) :=
  (terminateWorker c id reason).trans ⟨rfl, le_rfl, fun h => h⟩

theorem retireSwapping (reason : String) (ids : List ℕ) :
    Sheds c (c.retireSwapping reason ids) := by
  refine foldl (fun c id => (terminateWorker c id reason).trans ?_) ids c
  unfold Pool.swapOut
  split
  · exact refl _
  · exact ⟨rfl, le_rfl, fun h => h⟩

theorem tryAddWorker : Sheds c (c.tryAddWorker W).1 := by
  unfold Pool.tryAddWorker
  split <;> exact ⟨rfl, le_rfl, fun h => h⟩

end

theorem addWorkers (n : ℕ) (c : Pool V) : Sheds c (c.addWorkers W n) := by
  induction n generalizing c with
  | zero => exact refl c
  | succ n ih =>
    rw [Pool.addWorkers]
    split
    · exact tryAddWorker c
    · exact (tryAddWorker c).trans (ih _)

theorem eases (h : Sheds c c') : Eases c c' where
  rests := fun hidle => ⟨Nat.le_zero.mp (hidle.1 ▸ h.activeTasks), h.queue hidle.2⟩
  reports := fun hreported => Or.inl (h.isIdle ▸ hreported)

end Sheds

theorem isIdle_updateIdleState (c : Pool V) (h : c.updateIdleState.isIdle = true) :
    c.isIdle = true ∨ AllIdle c.updateIdleState := by
  revert h
  unfold Pool.updateIdleState
  dsimp only
  split
  · next hall => exact fun _ => Or.inr hall.1
  · split
    · next hbusy => exact fun _ => Or.inl hbusy.2
    · exact Or.inl

theorem allIdle_updateIdleState (h : AllIdle c) : AllIdle c.updateIdleState := by
  obtain ⟨isIdle, reports, heq, -⟩ := updateIdleState_eq c
  rw [heq]
  exact h

/-- A method that only takes tasks away, and reports at its end. -/
theorem Eases.reported (hrests : AllIdle c → AllIdle c') (hisIdle : c'.isIdle = c.isIdle) :
    Eases c c'.updateIdleState where
  rests := fun h => allIdle_updateIdleState (hrests h)
  reports := fun h => hisIdle ▸ isIdle_updateIdleState c' h

theorem Sheds.trans_eases (h : Sheds c c') (h' : Eases c' c'') : Eases c c'' where
  rests := h'.rests ∘ h.eases.rests
  reports := fun hreported => h.isIdle ▸ h'.reports hreported

theorem Sheds.reported (h : Sheds c c') : Eases c c'.updateIdleState :=
  .reported h.eases.rests h.isIdle

/-! ### The queue -/

theorem isIdle_recordPost (c : Pool V) (p : Post V) (key : Option String) (busy : Bool) :
    (c.recordPost p key busy).isIdle = c.isIdle := by
  obtain ⟨workers, busySince, busyTimeMs, h⟩ := recordPost_eq c p key busy
  rw [h]

theorem isIdle_dispatchToWorker (c : Pool V) (id : ℕ) (prepared : Prepared V) (key : Option String)
    (signal : Option ℕ) (viaQueue : Bool) (origin : Origin V) :
    (c.dispatchToWorker W T id prepared key signal viaQueue origin).1.isIdle = c.isIdle := by
  unfold Pool.dispatchToWorker
  dsimp only
  split
  · rw [(SameWork.listenForAbort _ signal key).isIdle, isIdle_recordPost]
    exact (SameWork.attempt W c).isIdle
  · exact (SameWork.attempt W c).isIdle

theorem isIdle_serve (c : Pool V) (drain : Drain) (id : ℕ) :
    (c.serve W T drain id).1.isIdle = c.isIdle := by
  have h := (SameWork.takeTask c drain).isIdle
  unfold Pool.serve
  dsimp only
  split
  · exact h
  · exact (isIdle_dispatchToWorker _ _ _ _ _ _ _).trans h

theorem isIdle_fillWorker (id n : ℕ) (slots : Option ℕ) (d : Pool.Dispatching V) :
    (Pool.fillWorker W T id n slots d).pool.isIdle = d.pool.isIdle := by
  induction n generalizing slots d with
  | zero => rfl
  | succ n ih =>
    rw [Pool.fillWorker]
    split
    · rfl
    · dsimp only
      split
      · exact (ih _ _).trans (isIdle_serve d.pool .dispatch id)
      · exact isIdle_serve d.pool .dispatch id

theorem isIdle_workerTurns (ws : List Worker) (d : Pool.Dispatching V) :
    (ws.foldl (Pool.workerTurn W T) d).pool.isIdle = d.pool.isIdle := by
  induction ws generalizing d with
  | nil => rfl
  | cons w ws ih => exact (ih _).trans (isIdle_fillWorker w.id _ _ d)

theorem dispatchQueuedTasks_of_empty (h : c.queue = []) : c.dispatchQueuedTasks W T = c := by
  unfold Pool.dispatchQueuedTasks
  rw [if_pos (Or.inr (Or.inr h))]

theorem dispatchQueuedTasks_eases (c : Pool V) : Eases c (c.dispatchQueuedTasks W T) := by
  refine ⟨fun h => by rwa [dispatchQueuedTasks_of_empty h.2], ?_⟩
  unfold Pool.dispatchQueuedTasks
  split
  · exact Or.inl
  · have hturns : (c.refreshReady.readyWorkers.foldl (Pool.workerTurn W T) ⟨c.refreshReady,
        c.refreshReady.adaptiveLimitNow.map (· - c.refreshReady.activeTasks), false⟩).pool.isIdle =
          c.isIdle := isIdle_workerTurns _ _
    dsimp only
    split
    · intro h
      rw [← hturns]
      exact isIdle_updateIdleState _ h
    · intro h
      exact Or.inl (hturns ▸ h)

/-! ### Each event -/

def Event.Posts : Event V → Prop
  | .post .. | .batch .. | .broadcast .. | .stopThePress .. => True
  | _ => False

def Frame.Posts : Frame V → Prop
  | .stopThePress .. => True
  | .handlers | .listeners .. | .message => False

theorem countMessage_eases (c : Pool V) (id : ℕ) (correlationId : Option String)
    (duration : Option ℚ) : Eases c (c.countMessage W T id correlationId duration) := by
  have hcounted : Sheds c (c.countReply id) :=
    (Sheds.updateWorker c id _).trans (Sheds.decrementActiveTasks _ 1)
  have hsettled : Sheds (c.countReply id) ((c.countReply id).settleReply correlationId) := by
    unfold Pool.settleReply
    split
    · exact .refl _
    · exact .cleanup _ _ _
  have hrecorded : Sheds ((c.countReply id).settleReply correlationId)
      (((c.countReply id).settleReply correlationId).recordLatency id duration) := by
    unfold Pool.recordLatency
    split
    · exact .updateWorker _ id _
    · exact ⟨rfl, le_rfl, fun h => h⟩
  have hshed := (hcounted.trans hsettled).trans hrecorded
  unfold Pool.countMessage Pool.inlineDrain
  generalize ((c.countReply id).settleReply correlationId).recordLatency id duration = d at hshed ⊢
  split
  · exact hshed.eases
  · next w hw =>
    have hfound := (Option.filter_eq_some_iff.mp hw).2
    have hqueue : d.queue ≠ [] := (of_decide_eq_true hfound).2.1
    refine ⟨fun h => absurd (hshed.queue h.2) hqueue, fun h => Or.inl ?_⟩
    rw [isIdle_serve, hshed.isIdle] at h
    exact h

theorem handleMessage_eases (c : Pool V) (id : ℕ) (message : Inbound) :
    Eases c (c.handleMessage W T id message) := by
  unfold Pool.handleMessage
  split
  · exact (Sheds.refl c).eases
  · split
    · exact (Sheds.updateWorker c id _).eases
    · next ready correlationId duration =>
      split
      · exact (Sheds.updateWorker c id _).trans_eases (dispatchQueuedTasks_eases _)
      · have h := countMessage_eases (W := W) (T := T) c id correlationId duration
        refine ⟨fun hidle => allIdle_updateIdleState (h.rests hidle), fun hreported => ?_⟩
        rcases isIdle_updateIdleState _ hreported with hbefore | hidle
        · rcases h.reports hbefore with hbefore | hidle
          · exact Or.inl hbefore
          · exact Or.inr (allIdle_updateIdleState hidle)
        · exact Or.inr hidle

theorem handleWorkerExit_eases (c : Pool V) (id : ℕ) : Eases c (c.handleWorkerExit W id) := by
  unfold Pool.handleWorkerExit
  split
  · exact (Sheds.refl c).eases
  · next w _ =>
    dsimp only
    generalize (if w.everCompletedTask = true then 0
      else (c.retire "worker-exit" id).consecutiveBootstrapFailures + 1) = failures
    have hretired : Sheds c { c.retire "worker-exit" id with consecutiveBootstrapFailures := failures } :=
      (Sheds.retire c "worker-exit" id).trans ⟨rfl, le_rfl, fun h => h⟩
    split
    · exact hretired.reported
    · split
      · exact hretired.reported
      · exact (hretired.trans (Sheds.addWorkers _ _)).reported

theorem abort_eases (c : Pool V) (s : ℕ) : Eases c (c.abort s) := by
  unfold Pool.abort
  split
  · exact (Sheds.refl c).eases
  · have hheard : Sheds c { c with
        aborted := s :: c.aborted
        listeners := c.listeners.filter (·.1 ≠ s) } := ⟨rfl, le_rfl, fun h => h⟩
    exact (hheard.trans (.foldl (fun c key => .cleanup c key _) _ _)).eases

theorem shutdown_eases (c : Pool V) : Eases c c.shutdown := by
  unfold Pool.shutdown
  split
  · exact (Sheds.refl c).eases
  · dsimp only
    have hrejected : Sheds c (Pool.rejectAllPending { c with terminated := true } "pool:shutdown") :=
      (⟨rfl, le_rfl, fun h => h⟩ : Sheds c { c with terminated := true }).trans (.rejectAllPending _ _)
    generalize Pool.rejectAllPending { c with terminated := true } _ = d at hrejected ⊢
    have hended : Sheds c (d.terminateWorkers (d.workers.map (·.id)) "shutdown") :=
      hrejected.trans (.foldl (fun c id => .terminateWorker c id _) _ d)
    have hempty : Sheds (d.terminateWorkers (d.workers.map (·.id)) "shutdown")
        { d.terminateWorkers (d.workers.map (·.id)) "shutdown" with
          workers := [], queue := [], activeTasks := 0 } := ⟨rfl, Nat.zero_le _, fun _ => rfl⟩
    exact (hended.trans hempty).reported

theorem resetPool_eases (c : Pool V) (recreate : Bool) : Eases c (c.resetPool W recreate) := by
  unfold Pool.resetPool
  dsimp only
  have hrejected : Sheds c (Pool.rejectAllPending { c with queue := [] }
      "stopThePress: cancelled pending response") :=
    (⟨rfl, le_rfl, fun _ => rfl⟩ : Sheds c { c with queue := [] }).trans (.rejectAllPending _ _)
  generalize Pool.rejectAllPending { c with queue := [] } _ = d at hrejected ⊢
  have hended : Sheds c (d.terminateWorkers (d.workers.map (·.id)).reverse "stopThePress:reset") :=
    hrejected.trans (.foldl (fun c id => .terminateWorker c id _) _ d)
  have hempty := hended.trans (⟨rfl, Nat.zero_le _, id⟩ :
    Sheds (d.terminateWorkers (d.workers.map (·.id)).reverse "stopThePress:reset")
      { d.terminateWorkers (d.workers.map (·.id)).reverse "stopThePress:reset" with
        workers := [], activeTasks := 0 })
  split
  · exact (hempty.trans (.addWorkers _ _)).reported
  · exact hempty.reported

theorem Eases.step {e : Event V} (he : ¬ e.Posts) (c : Pool V) :
    Eases c (PowerPool.step W T c e) := by
  cases e with
  | post | batch | broadcast | stopThePress => exact absurd trivial he
  | clock reading =>
    have hread : Sheds c { c with now := max c.now reading } := ⟨rfl, le_rfl, fun h => h⟩
    exact hread.eases
  | message id m => exact handleMessage_eases c id m
  | exit id => exact handleWorkerExit_eases c id
  | timeout n =>
    show Eases c (c.responseTimeout n)
    unfold Pool.responseTimeout
    split
    · exact (Sheds.refl c).eases
    · exact (Sheds.cleanup c _ _).eases
  | abort s => exact abort_eases c s
  | pause =>
    have hpaused : Sheds c { c with queuePaused := true } := ⟨rfl, le_rfl, fun h => h⟩
    exact hpaused.eases
  | resume =>
    show Eases c (c.resumeQueue W T)
    unfold Pool.resumeQueue
    split
    · have hresumed : Sheds c { c with queuePaused := false } := ⟨rfl, le_rfl, fun h => h⟩
      exact hresumed.trans_eases (dispatchQueuedTasks_eases _)
    · exact (Sheds.refl c).eases
  | addWorker =>
    show Eases c (c.addWorker W)
    unfold Pool.addWorker
    split
    · exact (Sheds.refl c).eases
    · dsimp only
      split
      · exact (Sheds.tryAddWorker c).reported
      · exact (Sheds.tryAddWorker c).eases
  | removeWorker =>
    show Eases c c.removeWorker
    unfold Pool.removeWorker
    split
    · exact (Sheds.refl c).eases
    · exact (Sheds.retire c _ _).reported
  | resize minSize maxSize =>
    have hbounds : Sheds c { c with minSize, maxSize := max minSize maxSize } :=
      ⟨rfl, le_rfl, fun h => h⟩
    exact ((hbounds.trans (.addWorkers _ _)).trans
      (.foldl (fun c id => .retire c "resize" id) _ _)).reported
  | reap =>
    show Eases c c.reapIdleWorkers
    unfold Pool.reapIdleWorkers
    split
    · exact (Sheds.refl c).eases
    · exact (Sheds.retireSwapping c _ _).reported
  | autoScale limit add remove =>
    show Eases c (c.autoScaleTick W limit add remove)
    have hlimit : Sheds c { c with adaptiveLimit := limit } := ⟨rfl, le_rfl, fun h => h⟩
    unfold Pool.autoScaleTick
    split
    · exact (Sheds.refl c).eases
    · dsimp only
      split
      · exact (hlimit.trans (.addWorkers _ _)).eases
      · split
        · exact (hlimit.trans (.retireSwapping _ _ _)).eases
        · exact hlimit.eases
  | observe =>
    obtain ⟨reports, heq, -⟩ := observeIdle_eq c
    show Eases c c.observeIdle
    rw [heq]
    exact Sheds.eases ⟨rfl, le_rfl, fun h => h⟩
  | shutdown => exact shutdown_eases c

end

/-! ## The listeners that are called -/

namespace Channel

variable {ch : Channel} {fn fn' : Subscriber}

theorem values_drop {k : ℕ} (h : fn' ∈ (ch.drop k).values) : fn' ∈ ch.values := by
  unfold drop at h
  split at h
  · cases h
  · exact h

theorem members_modify (ch : Channel) (k : ℕ) (f : List Subscriber → List Subscriber)
    (current : Option ℕ) :
    ({ buckets := ch.buckets.modify k f, current } : Channel).members k =
      if k < ch.buckets.length then f (ch.members k) else [] := by
  unfold members
  rw [List.getD_eq_getElem?_getD, List.getElem?_modify_eq, List.getD_eq_getElem?_getD]
  split
  · next hk => rw [List.getElem?_eq_getElem hk]; rfl
  · next hk => rw [List.getElem?_eq_none (Nat.not_lt.mp hk)]; rfl

theorem values_off (h : fn' ∈ (ch.off fn).values) : fn' ∈ ch.values := by
  unfold off at h
  cases hk : ch.current with
  | none =>
    rw [hk] at h
    exact h
  | some k =>
    rw [hk] at h
    have h := values_drop h
    unfold values at h ⊢
    rw [hk]
    rw [Option.elim_some, members_modify] at h
    split at h
    · exact List.mem_of_mem_erase h
    · cases h

theorem values_on (h : fn' ∈ (ch.on fn).values) : fn' ∈ ch.values ∨ fn' = fn := by
  unfold on at h
  cases hk : ch.current with
  | none =>
    rw [hk] at h
    unfold values members at h
    simp only [Option.elim_some, List.getD_eq_getElem?_getD, List.getElem?_concat_length,
      Option.getD_some, List.mem_singleton] at h
    exact Or.inr h
  | some k =>
    rw [hk] at h
    unfold values at h ⊢
    rw [hk]
    rw [Option.elim_some, members_modify] at h
    split at h
    · split at h
      · exact Or.inl h
      · rcases List.mem_append.mp h with h | h
        · exact Or.inl h
        · exact Or.inr (List.mem_singleton.mp h)
    · cases h

end Channel

/-! ## The drains that wait -/

namespace DrainingPool

variable {V : Type}

/-- The listeners a frame is still to call. -/
def calls (s : DrainingPool V) : Frame V → List Subscriber
  | .handlers => s.idle.values
  | .listeners _ rest => rest
  | .message | .stopThePress .. => []

def Calling (s : DrainingPool V) : Prop := ∃ f ∈ s.frames, ∃ n ∈ s.waiting, .drain n ∈ s.calls f

instance (s : DrainingPool V) : Decidable s.Calling := inferInstanceAs (Decidable (∃ f ∈ s.frames, _))

/-- The drains wait that are not settled, `_drainWaiters` counts them, and those that have
been resolved were resolved while the pool rested. -/
structure Inv (s : DrainingPool V) : Prop where
  calling : s.Calling → AllIdle s.pool
  resolved : ∀ n a q, (n, .resolved a q) ∈ s.settlements → a = 0 ∧ q = 0
  once : (s.settlements.map Prod.fst).Nodup
  asked : ∀ n ∈ s.settlements.map Prod.fst, n < s.asked
  waits : s.waits.map (·.drain) = s.waiting
  waiters : s.drainWaiters = s.waits.length
  listening : ∀ n, .drain n ∈ s.idle.values → n < s.asked
  known : ∀ f ∈ s.frames, ∀ n, .drain n ∈ s.calls f → n < s.asked

structure SameDrains (s s' : DrainingPool V) : Prop where
  settlements : s'.settlements = s.settlements
  asked : s'.asked = s.asked
  waits : s'.waits = s.waits
  drainWaiters : s'.drainWaiters = s.drainWaiters

section
variable {s : DrainingPool V}

theorem length_filter_ne {ws : List Wait} (h : (ws.map (·.drain)).Nodup) (n : ℕ) :
    ((ws.filter (·.drain ≠ n)).length : ℤ) =
      ws.length - if n ∈ ws.map (·.drain) then 1 else 0 := by
  induction ws with
  | nil => rfl
  | cons w ws ih =>
    obtain ⟨hw, hws⟩ := List.nodup_cons.mp h
    have ih := ih hws
    by_cases hn : w.drain = n
    · subst hn
      rw [if_neg hw] at ih
      simp only [List.map_cons, List.mem_cons, true_or, if_true, ne_eq, not_true_eq_false,
        decide_false, Bool.false_eq_true, not_false_eq_true, List.filter_cons_of_neg,
        List.length_cons, Nat.cast_add, Nat.cast_one]
      simp only [ne_eq] at ih
      omega
    · rw [List.filter_cons_of_pos (by simpa using hn), List.map_cons, List.length_cons,
        List.length_cons]
      have hmem : n ∈ w.drain :: ws.map (·.drain) ↔ n ∈ ws.map (·.drain) := by
        rw [List.mem_cons]
        exact or_iff_right fun h => hn h.symm
      simp only [hmem]
      push_cast
      omega

theorem mem_waiting {n : ℕ} : n ∈ s.waiting ↔ n < s.asked ∧ n ∉ s.settlements.map Prod.fst := by
  simp [waiting]

theorem nodup_waiting : s.waiting.Nodup := List.nodup_range.filter _

theorem waiting_settle (n : ℕ) (e : DrainEnd) :
    (s.settle n e).waiting = s.waiting.filter (· ≠ n) := by
  unfold settle
  split
  · next hmem =>
    refine (List.filter_eq_self.mpr fun m hm => ?_).symm
    rw [decide_eq_true_iff]
    rintro rfl
    exact (mem_waiting.mp hm).2 hmem
  · unfold waiting
    rw [List.filter_filter]
    apply List.filter_congr
    intro m _
    simp only [List.map_append, List.map_cons, List.map_nil, List.mem_append, List.mem_singleton,
      not_or, ← Bool.decide_and]
    exact decide_eq_decide.mpr and_comm

/-- The next drain waits before it is settled. -/
theorem waiting_ask (hs : s.Inv) : ({ s with asked := s.asked + 1 } : DrainingPool V).waiting =
    s.waiting ++ [s.asked] := by
  have hnew : s.asked ∉ s.settlements.map Prod.fst := fun h => lt_irrefl _ (hs.asked _ h)
  unfold waiting
  dsimp only
  rw [List.range_succ, List.filter_append, List.filter_singleton, decide_eq_true hnew, cond_true]

/-- What a release leaves. -/
theorem release_eq (s : DrainingPool V) (n : ℕ) : ∃ idle progress, s.release n =
    { s with
      waits := s.waits.filter (·.drain ≠ n)
      drainWaiters := s.drainWaiters - if n ∈ s.waits.map (·.drain) then 1 else 0
      idle, progress } ∧ ∀ fn ∈ idle.values, fn ∈ s.idle.values := by
  unfold release
  cases hw : s.waits.find? (·.drain = n) with
  | none =>
    have hnone : ∀ w ∈ s.waits, w.drain ≠ n := by
      intro w hmem
      simpa using List.find?_eq_none.mp hw w hmem
    have hfilter : s.waits.filter (·.drain ≠ n) = s.waits :=
      List.filter_eq_self.mpr fun w hmem => by simpa using hnone w hmem
    have hmem : n ∉ s.waits.map (·.drain) := by
      intro hmem
      obtain ⟨w, hwaits, hn⟩ := List.mem_map.mp hmem
      exact hnone w hwaits hn
    refine ⟨s.idle, s.progress, ?_, fun _ => id⟩
    rw [hfilter, if_neg hmem, sub_zero]
  | some w =>
    have hn : w.drain = n := by simpa using List.find?_some hw
    have hmem : n ∈ s.waits.map (·.drain) := List.mem_map.mpr ⟨w, List.mem_of_find?_eq_some hw, hn⟩
    refine ⟨s.idle.off (.drain n), if w.progress then s.progress.off (.drain n) else s.progress, ?_,
      fun fn hfn => Channel.values_off hfn⟩
    rw [if_pos hmem]

theorem mem_settle {n m : ℕ} {e d : DrainEnd} (h : (m, d) ∈ (s.settle n e).settlements) :
    (m, d) ∈ s.settlements ∨ n ∉ s.settlements.map Prod.fst ∧ m = n ∧ d = e := by
  unfold settle at h
  split at h
  · exact Or.inl h
  · next hnew =>
    rcases List.mem_append.mp h with h | h
    · exact Or.inl h
    · cases List.mem_singleton.mp h
      exact Or.inr ⟨hnew, rfl, rfl⟩

theorem once_settle (h : (s.settlements.map Prod.fst).Nodup) (n : ℕ) (e : DrainEnd) :
    ((s.settle n e).settlements.map Prod.fst).Nodup := by
  unfold settle
  split
  · exact h
  · next hnew =>
    rw [List.map_append]
    refine List.nodup_append.mpr ⟨h, List.nodup_singleton n, fun a ha b hb hab => ?_⟩
    have hb : b = n := List.mem_singleton.mp hb
    exact hnew (hb ▸ hab ▸ ha)

/-- A settlement changes nothing else. -/
theorem settle_eq (s : DrainingPool V) (n : ℕ) (e : DrainEnd) :
    ∃ settlements, s.settle n e = { s with settlements } := by
  unfold settle
  split
  · exact ⟨s.settlements, rfl⟩
  · exact ⟨_, rfl⟩

end

section
variable {W : World} {T : ObjectText V} {s s' : DrainingPool V}

/-- What leaves the drains alone is judged by the listeners that are still to be called. -/
theorem SameDrains.inv (h : SameDrains s s') (hs : s.Inv) (hcalling : s'.Calling → AllIdle s'.pool)
    (hidle : ∀ n, .drain n ∈ s'.idle.values → .drain n ∈ s.idle.values)
    (hframes : ∀ f ∈ s'.frames, ∀ n, .drain n ∈ s'.calls f → n < s.asked) : s'.Inv where
  calling := hcalling
  resolved := h.settlements ▸ hs.resolved
  once := h.settlements ▸ hs.once
  asked := h.settlements ▸ h.asked ▸ hs.asked
  waits := by
    unfold waiting
    rw [h.waits, h.asked, h.settlements]
    exact hs.waits
  waiters := by
    rw [h.drainWaiters, h.waits]
    exact hs.waiters
  listening := fun n hn => h.asked ▸ hs.listening n (hidle n hn)
  known := h.asked ▸ hframes

/-- A drain that is finished leaves the pool and the calls under way. -/
theorem finish_same (s : DrainingPool V) (n : ℕ) (e : DrainEnd) :
    ((s.release n).settle n e).pool = s.pool ∧ ((s.release n).settle n e).frames = s.frames ∧
      ((s.release n).settle n e).asked = s.asked := by
  obtain ⟨settlements, hsettle⟩ := settle_eq (s.release n) n e
  obtain ⟨idle, progress, hrelease, -⟩ := release_eq s n
  rw [hsettle, hrelease]
  exact ⟨rfl, rfl, rfl⟩

/-- A drain is released, and its promise settled: with the pool's state only while that rests. -/
theorem Inv.finish (hs : s.Inv) {n : ℕ} (hn : n < s.asked) {e : DrainEnd}
    (he : ∀ a q, e = .resolved a q → n ∈ s.waiting → a = 0 ∧ q = 0) :
    ((s.release n).settle n e).Inv := by
  obtain ⟨idle, progress, hrelease, hvalues⟩ := release_eq s n
  have hwaiting : (s.release n).waiting = s.waiting := by
    rw [hrelease]
    rfl
  have hlisteners : ∀ f, ∀ m, .drain m ∈ ((s.release n).settle n e).calls f → .drain m ∈ s.calls f := by
    intro f m hm
    obtain ⟨settlements, hsettle⟩ := settle_eq (s.release n) n e
    rw [hsettle, hrelease] at hm
    cases f with
    | handlers => exact hvalues _ hm
    | listeners k rest => exact hm
    | message | stopThePress => cases hm
  obtain ⟨hpool, hframes, hasked⟩ := finish_same s n e
  have hsettlements : (s.release n).settlements = s.settlements := by rw [hrelease]
  constructor
  · rintro ⟨f, hf, m, hm, hcall⟩
    rw [waiting_settle, hwaiting] at hm
    rw [hpool]
    exact hs.calling ⟨f, hframes ▸ hf, m, (List.mem_filter.mp hm).1, hlisteners f m hcall⟩
  · intro m a q hmem
    rcases mem_settle hmem with hmem | ⟨hnew, rfl, rfl⟩
    · exact hs.resolved m a q (hsettlements ▸ hmem)
    · exact he a q rfl (mem_waiting.mpr ⟨hn, hsettlements ▸ hnew⟩)
  · exact once_settle (hsettlements ▸ hs.once) n e
  · intro m hm
    rw [hasked]
    obtain ⟨⟨m', d⟩, hmem, rfl⟩ := List.mem_map.mp hm
    rcases mem_settle hmem with hmem | ⟨-, rfl, -⟩
    · exact hs.asked _ (List.mem_map_of_mem (hsettlements ▸ hmem))
    · exact hn
  · rw [waiting_settle, hwaiting, ← hs.waits, List.filter_map]
    obtain ⟨settlements, hsettle⟩ := settle_eq (s.release n) n e
    rw [hsettle, hrelease]
    rfl
  · obtain ⟨settlements, hsettle⟩ := settle_eq (s.release n) n e
    rw [hsettle, hrelease]
    dsimp only
    have hnodup : (s.waits.map (·.drain)).Nodup := hs.waits ▸ nodup_waiting
    have hlength := length_filter_ne hnodup n
    rw [hs.waiters]
    omega
  · intro m hm
    rw [hasked]
    exact hs.listening m (hlisteners .handlers m hm)
  · intro f hf m hm
    rw [hasked]
    exact hs.known f (hframes ▸ hf) m (hlisteners f m hm)

theorem Inv.finishAll (e : DrainEnd) (he : ∀ a q, e ≠ .resolved a q) (ns : List ℕ) (hs : s.Inv)
    (hns : ∀ n ∈ ns, n < s.asked) : (ns.foldl (fun s n => (s.release n).settle n e) s).Inv := by
  induction ns generalizing s with
  | nil => exact hs
  | cons n ns ih =>
    refine ih (hs.finish (hns n List.mem_cons_self) fun a q h => absurd h (he a q)) fun m hm => ?_
    rw [(finish_same s n e).2.2]
    exact hns m (List.mem_cons_of_mem n hm)

theorem sameDrains_left (s : DrainingPool V) (c : Pool V) : SameDrains s (s.left c) := ⟨rfl, rfl, rfl, rfl⟩

theorem frames_left {c : Pool V} {f : Frame V} (h : f ∈ (s.left c).frames) :
    f ∈ s.frames ∨ f = .handlers ∧ s.pool.isIdle = false ∧ c.isIdle = true := by
  unfold left at h
  dsimp only at h
  split at h
  · next hflip =>
    rcases List.mem_cons.mp h with rfl | h
    · exact Or.inr ⟨rfl, hflip⟩
    · exact Or.inl h
  · exact Or.inl h

section
variable (hs : s.Inv)
include hs

theorem Inv.left_of {c : Pool V} (hcalling : (s.left c).Calling → AllIdle c) :
    (s.left c).Inv := by
  refine (sameDrains_left s c).inv hs hcalling (fun n hn => hn) fun f hf n hn => ?_
  rcases frames_left hf with hf | ⟨rfl, -⟩
  · exact hs.known f hf n hn
  · exact hs.listening n hn

/-- A method that leaves a pool at rest that it finds so. -/
theorem Inv.left {c : Pool V} (h : Eases s.pool c) : (s.left c).Inv := by
  refine hs.left_of ?_
  rintro ⟨f, hf, n, hn, hcall⟩
  rcases frames_left hf with hf | ⟨-, hbusy, hidle⟩
  · exact h.rests (hs.calling ⟨f, hf, n, hn, hcall⟩)
  · rcases h.reports hidle with hbefore | hrests
    · rw [hbefore] at hbusy
      cases hbusy
    · exact hrests

/-- The pool of a call under way still rests if it did. -/
theorem Inv.ease {c : Pool V} (h : AllIdle s.pool → AllIdle c) :
    ({ s with pool := c } : DrainingPool V).Inv := by
  have hsame : SameDrains s { s with pool := c } := ⟨rfl, rfl, rfl, rfl⟩
  exact hsame.inv hs (fun hcalling => h (hs.calling hcalling)) (fun n hn => hn) hs.known

theorem Inv.push {f : Frame V} (hf : s.calls f = []) :
    ({ s with frames := f :: s.frames } : DrainingPool V).Inv := by
  have hsame : SameDrains s { s with frames := f :: s.frames } := ⟨rfl, rfl, rfl, rfl⟩
  refine hsame.inv hs ?_ (fun n hn => hn) ?_
  · rintro ⟨g, hg, n, hn, hcall⟩
    rcases List.mem_cons.mp hg with rfl | hg
    · have hcall : Subscriber.drain n ∈ s.calls g := hcall
      rw [hf] at hcall
      cases hcall
    · exact hs.calling ⟨g, hg, n, hn, hcall⟩
  · intro g hg n hcall
    rcases List.mem_cons.mp hg with rfl | hg
    · have hcall : Subscriber.drain n ∈ s.calls g := hcall
      rw [hf] at hcall
      cases hcall
    · exact hs.known g hg n hcall

theorem Inv.shrink (frames : List (Frame V)) (idle : Channel)
    (hidle : ∀ fn ∈ idle.values, fn ∈ s.idle.values)
    (h : ∀ f ∈ frames, ∀ n, Subscriber.drain n ∈ ({ s with frames, idle } : DrainingPool V).calls f →
      ∃ g ∈ s.frames, .drain n ∈ s.calls g) : ({ s with frames, idle } : DrainingPool V).Inv := by
  have hsame : SameDrains s { s with frames, idle } := ⟨rfl, rfl, rfl, rfl⟩
  refine hsame.inv hs ?_ (fun n hn => hidle _ hn) ?_
  · rintro ⟨f, hf, n, hn, hcall⟩
    obtain ⟨g, hg, hcall⟩ := h f hf n hcall
    exact hs.calling ⟨g, hg, n, hn, hcall⟩
  · intro f hf n hcall
    obtain ⟨g, hg, hcall⟩ := h f hf n hcall
    exact hs.known g hg n hcall

theorem Inv.user {idle : Channel}
    (hidle : ∀ n, .drain n ∈ idle.values → .drain n ∈ s.idle.values) :
    ({ s with idle } : DrainingPool V).Inv := by
  have hcalls : ∀ f n, Subscriber.drain n ∈ ({ s with idle } : DrainingPool V).calls f →
      .drain n ∈ s.calls f := by
    intro f n hcall
    cases f with
    | handlers => exact hidle n hcall
    | listeners | message | stopThePress => exact hcall
  have hsame : SameDrains s { s with idle } := ⟨rfl, rfl, rfl, rfl⟩
  refine hsame.inv hs ?_ hidle fun f hf n hcall => hs.known f hf n (hcalls f n hcall)
  rintro ⟨f, hf, n, hn, hcall⟩
  exact hs.calling ⟨f, hf, n, hn, hcalls f n hcall⟩

theorem Inv.abort (signal : ℕ) : (s.abort signal).Inv := by
  unfold DrainingPool.abort
  split
  · exact hs
  · have hleft : (s.left (s.pool.abort signal)).Inv :=
      hs.left (abort_eases s.pool signal)
    refine hleft.finishAll (.aborted signal) (fun _ _ => DrainEnd.noConfusion) _ fun n hn => ?_
    obtain ⟨w, hw, rfl⟩ := List.mem_map.mp hn
    have hwaits : w.drain ∈ s.waiting := hs.waits ▸ List.mem_map_of_mem (List.mem_filter.mp hw).1
    exact (mem_waiting.mp hwaits).1

theorem Inv.settledAtOnce {e : DrainEnd} (he : ∀ a q, e = .resolved a q → a = 0 ∧ q = 0) :
    ({ s with asked := s.asked + 1 }.settle s.asked e).Inv := by
  have hnew : s.asked ∉ s.settlements.map Prod.fst := fun h => lt_irrefl _ (hs.asked _ h)
  have hsettled : ({ s with asked := s.asked + 1 } : DrainingPool V).settle s.asked e =
      { s with asked := s.asked + 1, settlements := s.settlements ++ [(s.asked, e)] } := if_neg hnew
  have hwaiting : ({ s with asked := s.asked + 1 }.settle s.asked e).waiting = s.waiting := by
    rw [waiting_settle, waiting_ask hs, List.filter_append, List.filter_singleton]
    have hothers : s.waiting.filter (· ≠ s.asked) = s.waiting :=
      List.filter_eq_self.mpr fun m hm => decide_eq_true (mem_waiting.mp hm).1.ne
    rw [hothers, decide_eq_false fun h => h rfl, cond_false, List.append_nil]
  constructor
  · rintro ⟨f, hf, n, hn, hcall⟩
    rw [hwaiting] at hn
    rw [hsettled] at hf hcall ⊢
    refine hs.calling ⟨f, hf, n, hn, ?_⟩
    cases f <;> exact hcall
  · intro n a q hmem
    rcases mem_settle hmem with hmem | ⟨-, rfl, rfl⟩
    · exact hs.resolved n a q hmem
    · exact he a q rfl
  · exact once_settle (s := { s with asked := s.asked + 1 }) hs.once _ _
  · rw [hsettled]
    intro n hn
    rw [List.map_append] at hn
    rcases List.mem_append.mp hn with hn | hn
    · exact Nat.lt_succ_of_lt (hs.asked n hn)
    · rw [List.mem_singleton.mp hn]
      exact Nat.lt_succ_self _
  · rw [hwaiting, hsettled]
    exact hs.waits
  · rw [hsettled]
    exact hs.waiters
  · rw [hsettled]
    exact fun n hn => Nat.lt_succ_of_lt (hs.listening n hn)
  · rw [hsettled]
    intro f hf n hn
    refine Nat.lt_succ_of_lt (hs.known f hf n ?_)
    cases f <;> exact hn

theorem Inv.waits_on {w : Wait} (hw : w.drain = s.asked) (progress : Channel)
    (hcalling : ({ s with
        asked := s.asked + 1
        drainWaiters := s.drainWaiters + 1
        idle := s.idle.on (.drain s.asked)
        waits := s.waits ++ [w]
        progress } : DrainingPool V).Calling → AllIdle s.pool) :
    ({ s with
        asked := s.asked + 1
        drainWaiters := s.drainWaiters + 1
        idle := s.idle.on (.drain s.asked)
        waits := s.waits ++ [w]
        progress } : DrainingPool V).Inv := by
  have hlistening : ∀ n, .drain n ∈ (s.idle.on (.drain s.asked)).values → n < s.asked + 1 := by
    intro n hn
    rcases Channel.values_on hn with hn | hn
    · exact Nat.lt_succ_of_lt (hs.listening n hn)
    · cases hn
      exact Nat.lt_succ_self _
  constructor
  · exact hcalling
  · exact hs.resolved
  · exact hs.once
  · exact fun n hn => Nat.lt_succ_of_lt (hs.asked n hn)
  · show (s.waits ++ [w]).map (·.drain) = ({ s with asked := s.asked + 1 } : DrainingPool V).waiting
    rw [waiting_ask hs, List.map_append, hs.waits, List.map_singleton, hw]
  · show s.drainWaiters + 1 = ((s.waits ++ [w]).length : ℤ)
    rw [List.length_append, List.length_singleton, hs.waiters]
    push_cast
    rfl
  · exact hlistening
  · intro f hf n hn
    cases f with
    | handlers => exact hlistening n hn
    | listeners k rest => exact Nat.lt_succ_of_lt (hs.known _ hf n hn)
    | message | stopThePress => cases hn

end

theorem resolved_atOnce {o : DrainOptions} {a q : ℕ} (h : s.settledAtOnce o = some (.resolved a q)) :
    a = 0 ∧ q = 0 := by
  unfold DrainingPool.settledAtOnce at h
  split at h
  · cases h
  · split at h
    · next hidle =>
      cases h
      exact ⟨hidle.1, List.length_eq_zero_iff.mpr hidle.2⟩
    · split at h <;> cases h

/-! ## Each step -/

def Asks (s : DrainingPool V) : DrainEvent V → Prop
  | .pool e => e.Posts
  | .resume => ∃ f ∈ s.frames.head?, f.Posts
  | .drain _ => True
  | .timeout _ | .addEventListener .. | .removeEventListener .. => False

def HasRoom (s : DrainingPool V) : DrainEvent V → Prop
  | .drain o => s.settledAtOnce o = none →
      ¬ s.idle.Full s.maxListeners ∧ (o.onProgress = true → ¬ s.progress.Full s.maxListeners)
  | _ => True

/-- A post or a drain does not leave the pool busy while a notification has a waiting drain
to call, and a drain finds room for its listeners. -/
def Considerate (W : World) (T : ObjectText V) (s : DrainingPool V) (e : DrainEvent V) : Prop :=
  (s.Asks e → (s.step W T e).Calling → AllIdle (s.step W T e).pool) ∧ s.HasRoom e

theorem Inv.drain (hs : s.Inv) (o : DrainOptions) (h : Considerate W T s (.drain o)) :
    (s.drain o).Inv := by
  obtain ⟨hcalling, hroom⟩ := h
  have hcalling : (s.drain o).Calling → AllIdle (s.drain o).pool := hcalling trivial
  unfold DrainingPool.drain at hcalling ⊢
  cases honce : s.settledAtOnce o with
  | some e =>
    refine hs.settledAtOnce fun a q he => ?_
    rw [he] at honce
    exact resolved_atOnce honce
  | none =>
    obtain ⟨hidle, hprogress⟩ := hroom honce
    rw [honce] at hcalling
    dsimp only at hcalling ⊢
    unfold wait at hcalling ⊢
    dsimp only at hcalling ⊢
    rw [if_neg hidle] at hcalling ⊢
    by_cases hon : o.onProgress = false
    · rw [if_pos hon] at hcalling ⊢
      exact hs.waits_on rfl s.progress hcalling
    · rw [if_neg hon, if_neg (hprogress (Bool.not_eq_false _ ▸ hon))] at hcalling ⊢
      exact hs.waits_on rfl _ hcalling

theorem Inv.call (hs : s.Inv) (e : Event V) (h : Considerate W T s (.pool e)) : (s.call W T e).Inv := by
  have hcalling := h.1
  cases e with
  | post | batch | broadcast => exact hs.left_of (hcalling trivial)
  | abort signal => exact hs.abort signal
  | stopThePress recreate m tr o detached =>
    exact (hs.push (f := .stopThePress recreate m tr o detached) rfl).left (resetPool_eases s.pool recreate)
  | message id m =>
    cases m with
    | announce native =>
      exact hs.left (handleMessage_eases (W := W) (T := T) s.pool id (.announce native))
    | data ready correlationId duration =>
      rw [DrainingPool.call]
      split
      · exact (hs.push (f := .message) rfl).ease (countMessage_eases s.pool id correlationId duration).rests
      · exact hs.left (handleMessage_eases s.pool id (.data ready correlationId duration))
  | _ => exact hs.left (Eases.step id s.pool)

theorem Inv.resume (hs : s.Inv) (h : Considerate W T s .resume) : (s.resume W T).Inv := by
  have hcalling := h.1
  have hlater : ∀ f fs, s.frames = f :: fs → ∀ g ∈ fs, ∀ n, .drain n ∈ s.calls g →
      ∃ g ∈ s.frames, .drain n ∈ s.calls g := by
    intro f fs hframes g hg n hcall
    exact ⟨g, hframes ▸ List.mem_cons_of_mem f hg, hcall⟩
  have hpopped : ∀ f fs, s.frames = f :: fs → ({ s with frames := fs } : DrainingPool V).Inv := by
    intro f fs hframes
    refine hs.shrink fs s.idle (fun _ h => h) fun g hg n hcall => ?_
    refine hlater f fs hframes g hg n ?_
    cases g <;> exact hcall
  simp only [DrainingPool.step, DrainingPool.resume] at hcalling ⊢
  split
  · exact hs
  · next frames hframes =>
    split
    · exact hpopped _ _ hframes
    · next k hk =>
      refine hs.shrink _ s.idle (fun _ h => h) fun g hg n hcall => ?_
      rcases List.mem_cons.mp hg with rfl | hg
      · -- the snapshot is of the bucket in the map
        refine ⟨.handlers, hframes ▸ List.mem_cons_self, ?_⟩
        have hcurrent : s.idle.current = some k := (Option.filter_eq_some_iff.mp hk).1
        show Subscriber.drain n ∈ s.idle.values
        unfold Channel.values
        rw [hcurrent]
        exact hcall
      · refine hlater _ frames hframes g hg n ?_
        cases g <;> exact hcall
  · next k frames hframes =>
    refine hs.shrink frames (s.idle.drop k) (fun fn => Channel.values_drop) fun g hg n hcall => ?_
    refine hlater _ frames hframes g hg n ?_
    cases g with
    | handlers => exact Channel.values_drop hcall
    | listeners | message | stopThePress => exact hcall
  · next k id rest frames hframes =>
    refine hs.shrink _ s.idle (fun _ h => h) fun g hg n hcall => ?_
    rcases List.mem_cons.mp hg with rfl | hg
    · exact ⟨.listeners k (.user id :: rest), hframes ▸ List.mem_cons_self, List.mem_cons_of_mem _ hcall⟩
    · refine hlater _ frames hframes g hg n ?_
      cases g <;> exact hcall
  · next k m rest frames hframes =>
    have hmem : Frame.listeners k (.drain m :: rest) ∈ s.frames := hframes ▸ List.mem_cons_self
    have hshrunk : ({ s with frames := .listeners k rest :: frames } : DrainingPool V).Inv := by
      refine hs.shrink _ s.idle (fun _ h => h) fun g hg n hcall => ?_
      rcases List.mem_cons.mp hg with rfl | hg
      · exact ⟨_, hmem, List.mem_cons_of_mem _ hcall⟩
      · refine hlater _ frames hframes g hg n ?_
        cases g <;> exact hcall
    refine hshrunk.finish (hs.known _ hmem m List.mem_cons_self) fun a q he hwaits => ?_
    -- whoever is called and still waits finds the pool at rest
    have hidle : AllIdle s.pool := hs.calling ⟨_, hmem, m, hwaits, List.mem_cons_self⟩
    cases he
    exact ⟨hidle.1, List.length_eq_zero_iff.mpr hidle.2⟩
  · next frames hframes => exact (hpopped _ _ hframes).left (Sheds.refl s.pool).reported
  · next recreate m tr o detached frames hframes =>
    refine (hpopped _ _ hframes).left_of ?_
    rw [hframes] at hcalling
    exact hcalling ⟨.stopThePress recreate m tr o detached, by rw [hframes]; rfl, trivial⟩

theorem Inv.step (hs : s.Inv) (e : DrainEvent V) (h : Considerate W T s e) : (s.step W T e).Inv := by
  cases e with
  | pool e => exact hs.call e h
  | resume => exact hs.resume h
  | drain o => exact hs.drain o h
  | timeout n =>
    show (s.timeout n).Inv
    unfold DrainingPool.timeout
    split
    · next hwait =>
      obtain ⟨w, hw, hn⟩ := List.any_eq_true.mp hwait
      have hwaits : w.drain ∈ s.waiting := hs.waits ▸ List.mem_map_of_mem hw
      have hn : w.drain = n := by simpa using (Bool.and_eq_true_iff.mp hn).1
      exact hs.finish (hn ▸ (mem_waiting.mp hwaits).1) fun a q he => nomatch he
    · exact hs
  | addEventListener idle id =>
    simp only [DrainingPool.step]
    split
    · split
      · exact hs
      · exact hs.user fun n hn => (Channel.values_on hn).resolve_right Subscriber.noConfusion
    · split
      · exact hs
      · exact { hs with }
  | removeEventListener idle id =>
    simp only [DrainingPool.step]
    split
    · exact hs.user fun n hn => Channel.values_off hn
    · exact { hs with }

/-! ## The pool's machine -/

/-- The call on top of the stack goes on to its end, with functions of the user's that do
nothing, and leaves the pool and the calls below it so. -/
def Returns (W : World) (T : ObjectText V) (s : DrainingPool V) (c : Pool V)
    (frames : List (Frame V)) : Prop :=
  ∃ n, ((·.resume W T)^[n] s).pool = c ∧ ((·.resume W T)^[n] s).frames = frames

theorem Returns.now {frames : List (Frame V)} (h : s.frames = frames) : Returns W T s s.pool frames := ⟨0, rfl, h⟩

theorem Returns.later {c : Pool V} {frames : List (Frame V)}
    (h : Returns W T (s.resume W T) c frames) : Returns W T s c frames := by
  obtain ⟨n, hpool, hframes⟩ := h
  exact ⟨n + 1, hpool, hframes⟩

theorem Returns.trans {c : Pool V} {frames frames' : List (Frame V)} (h : Returns W T s c frames)
    {c' : Pool V} (h' : ∀ s : DrainingPool V, s.pool = c → s.frames = frames →
      Returns W T s c' frames') : Returns W T s c' frames' := by
  obtain ⟨n, hpool, hframes⟩ := h
  obtain ⟨m, hpool', hframes'⟩ := h' _ hpool hframes
  refine ⟨m + n, ?_, ?_⟩
  · rw [Function.iterate_add_apply]
    exact hpool'
  · rw [Function.iterate_add_apply]
    exact hframes'

theorem listeners_return {k : ℕ} {rest : List Subscriber} {frames : List (Frame V)}
    (h : s.frames = .listeners k rest :: frames) : Returns W T s s.pool frames := by
  induction rest generalizing s with
  | nil =>
    refine Returns.later ?_
    unfold DrainingPool.resume
    rw [h]
    exact .now rfl
  | cons fn rest ih =>
    refine Returns.later ?_
    have hpool : (s.resume W T).pool = s.pool ∧ (s.resume W T).frames = .listeners k rest :: frames := by
      unfold DrainingPool.resume
      rw [h]
      cases fn with
      | user id => exact ⟨rfl, rfl⟩
      | drain n =>
        have hsame := finish_same { s with frames := .listeners k rest :: frames } n
          (.resolved s.pool.activeTasks s.pool.queue.length)
        exact ⟨hsame.1, hsame.2.1⟩
    rw [← hpool.1]
    exact ih hpool.2

theorem handlers_return {frames : List (Frame V)} (h : s.frames = .handlers :: frames) :
    Returns W T s s.pool frames := by
  refine Returns.later ?_
  unfold DrainingPool.resume
  rw [h]
  dsimp only
  split
  · exact .now rfl
  · exact listeners_return rfl

theorem left_returns (s : DrainingPool V) (c : Pool V) : Returns W T (s.left c) c s.frames := by
  unfold DrainingPool.left
  split
  · exact handlers_return rfl
  · exact .now rfl

theorem abort_returns (s : DrainingPool V) (signal : ℕ) :
    Returns W T (s.abort signal) (s.pool.abort signal) s.frames := by
  unfold DrainingPool.abort
  split
  · next h =>
    have hpool : s.pool.abort signal = s.pool := if_pos h
    rw [hpool]
    exact .now rfl
  · generalize ((s.waits.filter (·.signal = some signal)).map (·.drain)) = ns
    have hsame : ∀ d : DrainingPool V,
        (ns.foldl (fun s n => s.onAbort signal n) d).pool = d.pool ∧
          (ns.foldl (fun s n => s.onAbort signal n) d).frames = d.frames := by
      induction ns with
      | nil => exact fun d => ⟨rfl, rfl⟩
      | cons n ns ih =>
        intro d
        obtain ⟨hpool, hframes, -⟩ := finish_same d n (.aborted signal)
        exact ⟨(ih _).1.trans hpool, (ih _).2.trans hframes⟩
    obtain ⟨hpool, hframes⟩ := hsame (s.left (s.pool.abort signal))
    generalize ns.foldl (fun s n => s.onAbort signal n) (s.left (s.pool.abort signal)) = d at hpool hframes ⊢
    rw [show s.pool.abort signal = d.pool from hpool.symm]
    unfold DrainingPool.left at hframes
    dsimp only at hframes
    split at hframes
    · exact handlers_return hframes
    · exact .now hframes

/-- A call during which the user's functions do nothing leaves the pool as the pool's own
machine does. -/
theorem call_returns (W : World) (T : ObjectText V) (s : DrainingPool V) (e : Event V) :
    Returns W T (s.call W T e) (PowerPool.step W T s.pool e) s.frames := by
  cases e with
  | abort signal => exact abort_returns s signal
  | stopThePress recreate m tr o detached =>
    refine (left_returns _ (s.pool.resetPool W recreate)).trans fun d hpool hframes => .later ?_
    have hstep : PowerPool.step W T s.pool (.stopThePress recreate m tr o detached) =
        (s.pool.resetPool W recreate).postAfterReset W T recreate m tr o detached := rfl
    unfold DrainingPool.resume
    rw [hframes, hstep, ← hpool]
    exact left_returns { d with frames := s.frames } _
  | message id m =>
    cases m with
    | announce native => exact left_returns s _
    | data ready correlationId duration =>
      rw [DrainingPool.call]
      split
      · next hcounts =>
        obtain ⟨w, hw, hready⟩ := hcounts
        have hstep : PowerPool.step W T s.pool (.message id (.data ready correlationId duration)) =
            (s.pool.countMessage W T id correlationId duration).updateIdleState := by
          unfold PowerPool.step Pool.handleMessage
          dsimp only
          rw [show s.pool.worker? id = some w from hw]
          exact if_neg hready
        rw [hstep]
        exact .later (left_returns { s with pool := s.pool.countMessage W T id correlationId duration } _)
      · exact left_returns s _
  | _ => exact left_returns s _

end

/-! ## Runs -/

/-- A drain that was resolved was resolved while no task was active and the queue was empty,
no drain was settled twice, and `_drainWaiters` counts those that wait. -/
structure Sound {V : Type} (s : DrainingPool V) : Prop where
  resolved : ∀ n a q, (n, .resolved a q) ∈ s.settlements → a = 0 ∧ q = 0
  once : (s.settlements.map Prod.fst).Nodup
  waiters : s.drainWaiters = s.waiting.length

/-- In every run in which no post and no drain leaves the pool busy while a notification has
a waiting drain to call, and no drain finds the bus at its limit, drains are resolved only
while the pool rests, each is settled once at most, and those that wait are counted. -/
theorem drains_settle {V : Type} (W : World) (T : ObjectText V) (config : Config)
    (minSize maxSize initial sequence maxDrainWaiters maxListeners : ℕ) (es : List (DrainEvent V))
    (h : Meets (step W T) (Considerate W T)
      (.new W config minSize maxSize initial sequence maxDrainWaiters maxListeners) es) :
    Always (step W T) Sound
      (.new W config minSize maxSize initial sequence maxDrainWaiters maxListeners) es := by
  have hstep : ∀ (s : DrainingPool V) (e : DrainEvent V), s.Inv → Considerate W T s e →
      (s.step W T e).Inv := fun _ e hs he => hs.step e he
  refine (always_of_meets hstep ?_ h).mono fun s hs => ⟨hs.resolved, hs.once, ?_⟩
  · constructor
    · rintro ⟨f, hf, -⟩
      cases hf
    · exact fun n a q hmem => nomatch hmem
    · exact List.nodup_nil
    · exact fun n hn => nomatch hn
    · rfl
    · rfl
    · exact fun n hn => nomatch hn
    · exact fun f hf => nomatch hf
  · rw [hs.waiters, ← hs.waits, List.length_map]

/-- A worker is posted a message, two drains wait, and the worker's answer resolves them. -/
theorem drains_settle_reply :
    Always (step .sound idText) Sound (.new .sound {} 1 1 1 0 100 0)
      [.pool (.post (.object none) none {} []), .drain {}, .drain {},
        .pool (.message 0 (.data false none none)), .resume, .resume, .resume, .resume] := by
  refine drains_settle .sound idText {} 1 1 1 0 100 0 _ ?_
  refine ⟨⟨fun _ h => absurd h ?_, trivial⟩, ⟨fun _ h => absurd h ?_, fun _ => ⟨?_, nofun⟩⟩,
    ⟨fun _ h => absurd h ?_, fun _ => ⟨?_, nofun⟩⟩, ⟨nofun, trivial⟩, ⟨fun _ _ => ?_, trivial⟩,
    ⟨fun _ _ => ?_, trivial⟩, ⟨fun _ _ => ?_, trivial⟩, ⟨fun _ _ => ?_, trivial⟩, trivial⟩
  all_goals decide +kernel

/-- A handler of the idle notification posts a message, and the drain the notification comes
to next is resolved while that message is at its worker. -/
theorem drain_resolved_busy :
    ¬ Always (step .sound idText) Sound (.new .sound {} 1 1 1 0 100 0)
      [.pool (.post (.object none) none {} []), .drain {},
        .pool (.message 0 (.data false none none)), .resume,
        .pool (.post (.object none) none {} []), .resume, .resume] := by
  intro h
  have hresolved := h.last.resolved 0 1 0 (by decide +kernel)
  exact absurd hresolved.1 (by decide)

/- A drain that finds the bus at its limit is counted, and does not wait. -/
example :
    let s := run (step .sound idText) (.new .sound {} 1 1 1 0 100 1)
      [.pool (.post (.object none) none {} []), .drain {}, .drain {}]
    s.drainWaiters = 2 ∧ s.waiting = [0] := by
  decide +kernel

end DrainingPool

end PerformanceHelpers.PowerPool
