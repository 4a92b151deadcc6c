import PerformanceHelpers.PowerPool.Post

/- What each method of a post comes to, by cases (`enqueueOrReject_cases`,
   `postToWorkerObj_cases`, `takeRoute_cases`): a task is taken on, or the post is
   refused before anything of it is queued or posted. Which it is, is a matter of the
   state the post finds (`Unserved`). -/
namespace PerformanceHelpers.PowerPool

variable {V : Type}

/-- Tasks, requests and promises are as they were; workers, counters, limits and the
clock may differ. -/
structure SameTasks (c c' : Pool V) : Prop where
  config : c'.toConfig = c.toConfig
  queue : c'.queue = c.queue
  pending : c'.pending = c.pending
  listeners : c'.listeners = c.listeners
  aborted : c'.aborted = c.aborted
  nextPromise : c'.nextPromise = c.nextPromise
  settled : c'.settled = c.settled
  signals : c'.signals = c.signals
  posted : c'.posted = c.posted
  enqueued : c'.enqueued = c.enqueued
  evictions : c'.evictions = c.evictions
  discards : c'.discards = c.discards
  takes : c'.takes = c.takes

namespace SameTasks

variable {c c' c'' : Pool V}

theorem refl (c : Pool V) : SameTasks c c := by constructor <;> rfl

theorem trans (h : SameTasks c c') (h' : SameTasks c' c'') : SameTasks c c'' where
  config := h'.config.trans h.config
  queue := h'.queue.trans h.queue
  pending := h'.pending.trans h.pending
  listeners := h'.listeners.trans h.listeners
  aborted := h'.aborted.trans h.aborted
  nextPromise := h'.nextPromise.trans h.nextPromise
  settled := h'.settled.trans h.settled
  signals := h'.signals.trans h.signals
  posted := h'.posted.trans h.posted
  enqueued := h'.enqueued.trans h.enqueued
  evictions := h'.evictions.trans h.evictions
  discards := h'.discards.trans h.discards
  takes := h'.takes.trans h.takes

end SameTasks

namespace SameTasks

variable (W : World) (c : Pool V)

theorem updateWorker (id : ℕ) (f : Worker → Worker) : SameTasks c (c.updateWorker id f) := by constructor <;> rfl

theorem refreshReady : SameTasks c c.refreshReady := by constructor <;> rfl

theorem attempt : SameTasks c (c.attempt W).1 := by constructor <;> rfl

theorem advance : SameTasks c c.advance := by constructor <;> rfl

theorem correlationIdFor (o : PostOptions) : SameTasks c (c.correlationIdFor o).1 := by
  unfold Pool.correlationIdFor
  split
  · constructor <;> rfl
  · constructor <;> rfl

theorem closeBusyInterval (before after : ℕ) : SameTasks c (c.closeBusyInterval before after) := by
  unfold Pool.closeBusyInterval
  split
  · split <;> (constructor <;> rfl)
  · split <;> (constructor <;> rfl)

theorem decrementActiveTasks (n : ℕ) : SameTasks c (c.decrementActiveTasks n) := by
  have h : SameTasks c { c with activeTasks := c.activeTasks - n } := by constructor <;> rfl
  exact h.trans (closeBusyInterval _ _ _)

theorem updateIdleState : SameTasks c c.updateIdleState := by
  unfold Pool.updateIdleState
  dsimp only
  split
  · constructor <;> rfl
  · split <;> (constructor <;> rfl)

theorem observeIdle : SameTasks c c.observeIdle := by
  unfold Pool.observeIdle
  split <;> (constructor <;> rfl)

theorem countReply (id : ℕ) : SameTasks c (c.countReply id) :=
  (updateWorker c id _).trans (decrementActiveTasks _ 1)

theorem tryAddWorker : SameTasks c (c.tryAddWorker W).1 := by
  unfold Pool.tryAddWorker
  split <;> (constructor <;> rfl)

theorem selectWorker : SameTasks c (c.selectWorker W).1 := by
  unfold Pool.selectWorker
  split
  · constructor <;> rfl
  · dsimp only
    split
    · constructor <;> rfl
    · split <;> (constructor <;> rfl)

theorem leastFor (target : Option ℕ) : SameTasks c (c.leastFor W target).1 := by
  unfold Pool.leastFor
  split
  · constructor <;> rfl
  · split
    · constructor <;> rfl
    · exact selectWorker W c

end SameTasks

/-- There is room for one more item. -/
def Room (c : Pool V) : Prop := ∀ cap ∈ c.maxQueueLength, c.queue.length < cap

/-- The queue is no longer than it may be. -/
def Bounded (c : Pool V) : Prop := ∀ cap ∈ c.maxQueueLength, c.queue.length ≤ cap

/-! ## Pending responses -/

/-- What `_cleanupPendingResponse` settles: the promise under the key, if there is
one. -/
def settlementOf (c : Pool V) (key : String) (s : Settlement) : List (ℕ × Settlement) :=
  ((c.entryFor? key).map fun e => (e.promise, s)).toList

theorem cleanupPendingResponse_eq (c : Pool V) (key : String) (s : Settlement) :
    c.cleanupPendingResponse key s =
      { c with
        pending := c.pending.filter fun e => e.key != key
        settled := c.settled ++ settlementOf c key s } := by
  unfold Pool.cleanupPendingResponse settlementOf
  cases hentry : c.entryFor? key with
  | some e => rfl
  | none =>
    have hkeys : ∀ e ∈ c.pending, (e.key != key) = true := by
      intro e he
      have hne := List.find?_eq_none.mp hentry e he
      simpa using hne
    simp only [Option.map_none, Option.toList_none, List.append_nil, List.filter_eq_self.mpr hkeys]

/-- A request's entry is the only one under its key. -/
theorem register_eq (c : Pool V) (key : String) (o : PostOptions) :
    c.register key o =
      { c with
        pending := (c.pending.filter fun e => e.key != key) ++
          [⟨key, c.nextPromise, none, decide (0 < c.perCallTimeout o)⟩]
        settled := c.settled ++ settlementOf c key (.rejected s!"duplicate correlationId: {key}")
        nextPromise := c.nextPromise + 1
        signals := c.signals ++ (o.signal.map fun s => (c.nextPromise, s)).toList } := by
  unfold Pool.register Pool.createPendingResponsePromise
  rw [cleanupPendingResponse_eq]

theorem entry_register (c : Pool V) (key : String) (o : PostOptions) :
    ∃ e, (c.register key o).entryFor? key = some e ∧ e.promise = c.nextPromise := by
  rw [register_eq]
  refine ⟨⟨key, c.nextPromise, none, decide (0 < c.perCallTimeout o)⟩, ?_, rfl⟩
  unfold Pool.entryFor?
  rw [List.find?_append, List.find?_eq_none.mpr]
  · simp
  · intro e he
    simpa using (List.mem_filter.mp he).2

theorem refuse_cases (c : Pool V) (waiter : Waiter) (s : Settlement) :
    (∀ key n, waiter = some (key, n) → key = "") ∧ c.refuse waiter s = (c, .refused) ∨
      ∃ key n, waiter = some (key, n) ∧ key ≠ "" ∧
        c.refuse waiter s = (c.cleanupPendingResponse key s, .promise n) := by
  cases waiter with
  | none => exact Or.inl ⟨fun _ _ h => (by cases h), rfl⟩
  | some w =>
    obtain ⟨key, n⟩ := w
    unfold Pool.refuse
    dsimp only
    by_cases hkey : key = ""
    · rw [if_pos hkey]
      refine Or.inl ⟨fun k m h => ?_, rfl⟩
      cases h
      exact hkey
    · rw [if_neg hkey]
      exact Or.inr ⟨key, n, rfl, hkey, rfl⟩

theorem closeBusyInterval_eq (c : Pool V) (before after : ℕ) :
    ∃ busySince busyTimeMs, c.closeBusyInterval before after = { c with busySince, busyTimeMs } := by
  unfold Pool.closeBusyInterval
  split
  · split <;> exact ⟨_, _, rfl⟩
  · split <;> exact ⟨_, _, rfl⟩

/-- What a post that is counted changes. -/
theorem recordPost_eq (c : Pool V) (p : Post V) (key : Option String) (busy : Bool) :
    ∃ workers busySince busyTimeMs, c.recordPost p key busy =
      { c with
        workers, busySince, busyTimeMs
        activeTasks := c.activeTasks + 1
        pending := Pool.markEntries key p.worker c.pending
        posted := c.posted ++ [p] } := by
  unfold Pool.recordPost
  dsimp only
  split
  · obtain ⟨busySince, busyTimeMs, h⟩ := closeBusyInterval_eq
      { (c.updateWorker p.worker fun w =>
          { w with
            tasks := w.tasks + 1
            unanswered := w.unanswered + 1
            startTimes := w.startTimes ++ [c.now]
            lastActive := c.now }).markPendingWorker key p.worker with
        activeTasks := c.activeTasks + 1, posted := c.posted ++ [p] } c.activeTasks (c.activeTasks + 1)
    exact ⟨_, busySince, busyTimeMs, h⟩
  · exact ⟨_, _, _, rfl⟩

/-- Marking leaves the keys and the promises. -/
theorem mem_markEntries {pending : List Entry} {key : Option String} {id : ℕ} {e : Entry}
    (he : e ∈ Pool.markEntries key id pending) :
    ∃ e' ∈ pending, e'.key = e.key ∧ e'.promise = e.promise := by
  cases key with
  | none => exact ⟨e, he, rfl, rfl⟩
  | some k =>
    obtain ⟨e', he', rfl⟩ := List.mem_map.mp he
    refine ⟨e', he', ?_⟩
    split <;> exact ⟨rfl, rfl⟩

/-! ## The queue -/

def Evicts (c : Pool V) : Prop := c.queuePolicy = .dropOldest ∧ c.queue ≠ []

/-- `_enqueueOrReject` queues what it is handed. -/
def QueueAccepts (c : Pool V) : Prop :=
  c.queuePolicy ≠ .reject ∧ ¬ (c.queuePolicy = .dropNewest ∧ c.queue ≠ []) ∧ (Evicts c ∨ Room c)

theorem shift_nil (c : Pool V) : c.shift [] = none := by
  unfold Pool.shift
  split
  · rfl
  · rfl

variable {c' c : Pool V}

theorem evict_of_nil (h : c.queue = []) : c.evict = c := by
  unfold Pool.evict
  rw [h, shift_nil]

theorem evictMany_of_nil (h : c.queue = []) (n : ℕ) : Pool.evictMany n c = c := by
  induction n with
  | zero => rfl
  | succ n ih => rw [Pool.evictMany, evict_of_nil h, ih]

theorem reserveQueueSlots_of_room (h : Room c) : c.reserveQueueSlots 1 = (c, 1) := by
  unfold Pool.reserveQueueSlots
  cases hcap : c.maxQueueLength with
  | none => rfl
  | some cap =>
    have hlt := h cap hcap
    dsimp only
    rw [if_pos (by omega)]

theorem reserveQueueSlots_of_full (hroom : ¬ Room c) (hev : ¬ Evicts c) :
    c.reserveQueueSlots 1 = (c, 0) := by
  unfold Pool.reserveQueueSlots
  cases hcap : c.maxQueueLength with
  | none => exact absurd (fun cap hc => by rw [hcap] at hc; cases hc) hroom
  | some cap =>
    have hle : ¬ c.queue.length < cap := fun hlt =>
      hroom fun cap' hc => by rw [hcap] at hc; cases hc; exact hlt
    dsimp only
    rw [if_neg (by omega)]
    -- where the oldest would be dropped, there is none
    have hsame : (if c.queuePolicy = .dropOldest then
        Pool.evictMany (c.queue.length + 1 - cap) c else c) = c := by
      split
      · next hpolicy =>
        have hnil : c.queue = [] := by
          by_contra hne
          exact hev ⟨hpolicy, hne⟩
        exact evictMany_of_nil hnil _
      · rfl
    rw [hsame, Nat.sub_eq_zero_of_le (not_lt.mp hle)]

theorem enqueueOrReject_cases (c : Pool V) (prepared : Prepared V) (waiter : Waiter)
    (deadlineAt : Option ℚ) (o : PostOptions) (origin : Origin V) :
    QueueAccepts c ∧ Evicts c ∧ c.enqueueOrReject prepared waiter deadlineAt o origin =
        c.evict.pushItem (c.queuedItem prepared waiter deadlineAt o origin) waiter ∨
      QueueAccepts c ∧ Room c ∧ c.enqueueOrReject prepared waiter deadlineAt o origin =
        c.pushItem (c.queuedItem prepared waiter deadlineAt o origin) waiter ∨
      ¬ QueueAccepts c ∧ ∃ e, c.enqueueOrReject prepared waiter deadlineAt o origin =
        c.refuse waiter (.rejected e) := by
  unfold Pool.enqueueOrReject
  dsimp only
  by_cases hrefuse : c.queuePolicy = .reject ∨ c.queuePolicy = .dropNewest ∧ c.queue ≠ []
  · rw [if_pos hrefuse]
    refine Or.inr (Or.inr ⟨fun h => ?_, _, rfl⟩)
    rcases hrefuse with hr | hn
    · exact h.1 hr
    · exact h.2.1 hn
  · have hpolicy := not_or.mp hrefuse
    rw [if_neg hrefuse]
    by_cases hev : c.queuePolicy = .dropOldest ∧ c.queue ≠ []
    · rw [if_pos hev]
      exact Or.inl ⟨⟨hpolicy.1, hpolicy.2, Or.inl hev⟩, hev, rfl⟩
    · rw [if_neg hev]
      by_cases hroom : Room c
      · rw [reserveQueueSlots_of_room hroom]
        exact Or.inr (Or.inl ⟨⟨hpolicy.1, hpolicy.2, Or.inr hroom⟩, hroom, rfl⟩)
      · rw [reserveQueueSlots_of_full hroom hev]
        refine Or.inr (Or.inr ⟨fun h => ?_, _, rfl⟩)
        rcases h.2.2 with h | h
        · exact hev h
        · exact hroom h

/-! ## The post -/

variable (W : World) (T : ObjectText V)

variable {W} in
theorem dispatchToWorker_of_accepts (h : W.accepts c.attempts = true) (id : ℕ)
    (prepared : Prepared V) (key : Option String) (signal : Option ℕ) (viaQueue : Bool) (origin : Origin V) :
    ∃ wire, c.dispatchToWorker W T id prepared key signal viaQueue origin =
      (((c.attempt W).1.recordPost (c.postTo id wire viaQueue origin) key true).listenForAbort
        signal key, true) := by
  refine ⟨wrapperMessage T (dispatchedItem T c.messageCodec prepared).message, ?_⟩
  unfold Pool.dispatchToWorker
  dsimp only
  rw [if_pos (show (c.attempt W).2 = true from h)]

variable {W} in
theorem dispatchToWorker_of_throws (h : W.accepts c.attempts = false) (id : ℕ)
    (prepared : Prepared V) (key : Option String) (signal : Option ℕ) (viaQueue : Bool) (origin : Origin V) :
    c.dispatchToWorker W T id prepared key signal viaQueue origin = ((c.attempt W).1, false) := by
  unfold Pool.dispatchToWorker
  dsimp only
  rw [if_neg (by rw [show (c.attempt W).2 = false from h]; exact Bool.false_ne_true)]

/-- A post that is counted leaves the pool in a state of its own. -/
theorem sameTasks_idle (c : Pool V) : SameTasks c (if c.isIdle then c.updateIdleState else c) := by
  split
  · exact SameTasks.updateIdleState c
  · exact SameTasks.refl c

/-- What `_postToWorkerObj` comes to: a task is posted past the wrapper, or through
`_dispatchToWorker`, or the worker's `postMessage` throws. -/
theorem postToWorkerObj_cases (c : Pool V) (id : ℕ) (prepared : Prepared V) (waiter : Waiter)
    (signal : Option ℕ) (origin : Origin V) (detached : List ℕ) :
    W.accepts c.attempts = true ∧ canBypassWrapper detached (c.encodeFor T id prepared) = true ∧
        (∃ c' wire, SameTasks ((c.attempt W).1.recordPost (c.postTo id wire false origin)
          (waiter.map (·.1)) false) c' ∧
          c.postToWorkerObj W T id prepared waiter signal origin detached = (c', answer waiter)) ∨
      W.accepts c.attempts = true ∧ canBypassWrapper detached (c.encodeFor T id prepared) = false ∧
        (∃ c' wire, SameTasks (((c.attempt W).1.recordPost (c.postTo id wire false origin)
          (waiter.map (·.1)) true).listenForAbort signal (waiter.map (·.1))) c' ∧
          c.postToWorkerObj W T id prepared waiter signal origin detached = (c', answer waiter)) ∨
      W.accepts c.attempts = false ∧ c.postToWorkerObj W T id prepared waiter signal origin detached =
        (c.attempt W).1.refuse waiter Pool.postError := by
  unfold Pool.postToWorkerObj
  dsimp only
  cases haccepts : W.accepts c.attempts with
  | false =>
    refine Or.inr (Or.inr ⟨rfl, ?_⟩)
    have hattempt : (c.attempt W).2 = false := haccepts
    rw [dispatchToWorker_of_throws T haccepts, hattempt]
    simp only [Bool.false_eq_true, if_false, ite_self]
  | true =>
    have hattempt : (c.attempt W).2 = true := haccepts
    cases hbypass : canBypassWrapper detached (c.encodeFor T id prepared) with
    | true =>
      refine Or.inl ⟨rfl, rfl, _, (c.encodeFor T id prepared).message, sameTasks_idle _, ?_⟩
      rw [if_pos rfl, hattempt, if_pos rfl]
    | false =>
      obtain ⟨wire, hdispatch⟩ := dispatchToWorker_of_accepts T haccepts id
        (c.encodeFor T id prepared) (waiter.map (·.1)) signal false origin
      refine Or.inr (Or.inl ⟨rfl, rfl, _, wire, sameTasks_idle _, ?_⟩)
      rw [if_neg Bool.false_ne_true, hdispatch, if_pos rfl]

/-! ## Whether a task is taken on -/

def TookOn (c c' : Pool V) : Prop :=
  (∃ p, c'.posted = c.posted ++ [p]) ∧ c'.enqueued = c.enqueued ∨
    (∃ item, c'.enqueued = c.enqueued ++ [item]) ∧ c'.posted = c.posted

/-- Nothing has been posted or queued. -/
def LeftOut (c c' : Pool V) : Prop := c'.posted = c.posted ∧ c'.enqueued = c.enqueued

theorem TookOn.not_leftOut (h : TookOn c c') : ¬ LeftOut c c' := by
  rintro ⟨hposted, henqueued⟩
  rcases h with ⟨⟨p, hp⟩, -⟩ | ⟨⟨item, hitem⟩, -⟩
  · rw [hposted] at hp
    simp at hp
  · rw [henqueued] at hitem
    simp at hitem

theorem LeftOut.trans_tookOn {c'' : Pool V} (h : LeftOut c c') (h' : TookOn c' c'') :
    TookOn c c'' := by
  unfold TookOn at *
  rwa [← h.1, ← h.2]

theorem SameTasks.leftOut (h : SameTasks c c') : LeftOut c c' := ⟨h.posted, h.enqueued⟩

theorem TookOn.trans_leftOut {c'' : Pool V} (h : TookOn c c') (h' : LeftOut c' c'') :
    TookOn c c'' := by
  unfold TookOn at *
  rwa [h'.1, h'.2]

section
variable (c : Pool V)

theorem leftOut_cleanup (key : String) (s : Settlement) :
    LeftOut c (c.cleanupPendingResponse key s) := by
  rw [cleanupPendingResponse_eq]
  exact ⟨rfl, rfl⟩

theorem leftOut_register (key : String) (o : PostOptions) :
    LeftOut c (c.register key o) := by
  rw [register_eq]
  exact ⟨rfl, rfl⟩

theorem leftOut_refuse (waiter : Waiter) (s : Settlement) :
    LeftOut c (c.refuse waiter s).1 := by
  rcases refuse_cases c waiter s with ⟨-, h⟩ | ⟨key, n, -, -, h⟩
  · rw [h]
    exact ⟨rfl, rfl⟩
  · rw [h]
    exact leftOut_cleanup c key s

theorem leftOut_listen (signal : Option ℕ) (key : Option String) :
    LeftOut c (c.listenForAbort signal key) := by
  unfold Pool.listenForAbort
  split
  · split
    · exact leftOut_cleanup c _ _
    · exact ⟨rfl, rfl⟩
  · exact ⟨rfl, rfl⟩

theorem leftOut_evict : LeftOut c c.evict := by
  unfold Pool.evict
  split
  · exact ⟨rfl, rfl⟩
  · dsimp only
    split
    · exact ⟨rfl, rfl⟩
    · rw [cleanupPendingResponse_eq]
      exact ⟨rfl, rfl⟩

theorem tookOn_recordPost (p : Post V) (key : Option String) (busy : Bool) :
    TookOn c (c.recordPost p key busy) := by
  obtain ⟨ws, bs, bt, h⟩ := recordPost_eq c p key busy
  rw [h]
  exact Or.inl ⟨⟨p, rfl⟩, rfl⟩

theorem tookOn_pushItem (item : QueueItem V) (waiter : Waiter) :
    TookOn c (c.pushItem item waiter).1 := by
  have h : TookOn c (c.enqueue item) := Or.inr ⟨⟨item, rfl⟩, rfl⟩
  exact h.trans_leftOut (SameTasks.updateIdleState _).leftOut

end

def Unserved (c : Pool V) : Pool.PostRoute → Prop
  | .refuse _ => True
  | .queue => ¬ QueueAccepts c
  | .worker _ | .fallback _ => W.accepts c.attempts = false
  | .grow => W.creates c.nextWorkerId = false ∨ W.accepts c.attempts = false

/-- A call of a worker's `postMessage` that throws refuses the post. -/
theorem postToWorkerObj_refused (h : W.accepts c.attempts = false) (id : ℕ)
    (prepared : Prepared V) (waiter : Waiter) (signal : Option ℕ) (origin : Origin V) (detached : List ℕ) :
    c.postToWorkerObj W T id prepared waiter signal origin detached =
      (c.attempt W).1.refuse waiter Pool.postError := by
  rcases postToWorkerObj_cases W T c id prepared waiter signal origin detached with
    ⟨ha, -⟩ | ⟨ha, -⟩ | ⟨-, hr⟩
  · rw [h] at ha
    cases ha
  · rw [h] at ha
    cases ha
  · exact hr

/-- A call of a worker's `postMessage` that returns takes the task on. -/
theorem postToWorkerObj_served (h : W.accepts c.attempts = true) (id : ℕ)
    (prepared : Prepared V) (waiter : Waiter) (signal : Option ℕ) (origin : Origin V) (detached : List ℕ) :
    TookOn c (c.postToWorkerObj W T id prepared waiter signal origin detached).1 ∧
      (c.postToWorkerObj W T id prepared waiter signal origin detached).2 = answer waiter := by
  have hattempt : LeftOut c (c.attempt W).1 := (SameTasks.attempt W c).leftOut
  rcases postToWorkerObj_cases W T c id prepared waiter signal origin detached with
    ⟨-, -, c', wire, hsame, hr⟩ | ⟨-, -, c', wire, hsame, hr⟩ | ⟨ha, -⟩
  · rw [hr]
    have htook := (tookOn_recordPost _ _ _ _).trans_leftOut hsame.leftOut
    exact ⟨hattempt.trans_tookOn htook, rfl⟩
  · rw [hr]
    have htook := (tookOn_recordPost (c.attempt W).1 (c.postTo id wire false origin)
      (waiter.map (·.1)) true).trans_leftOut (leftOut_listen _ signal (waiter.map (·.1)))
    exact ⟨hattempt.trans_tookOn (htook.trans_leftOut hsame.leftOut), rfl⟩
  · rw [h] at ha
    cases ha

theorem tryAddWorker_created (h : W.creates c.nextWorkerId = true) :
    c.tryAddWorker W = (c.addWorkerInstance, some c.nextWorkerId) := by
  unfold Pool.tryAddWorker
  rw [if_pos h]

theorem routeOf_register (c : Pool V) (key : String) (o : PostOptions) (least : Option Worker)
    (target : Option ℕ) : (c.register key o).routeOf least target = c.routeOf least target := by
  rw [register_eq]
  rfl

theorem unserved_register (c : Pool V) (key : String) (o : PostOptions) (route : Pool.PostRoute) :
    Unserved W (c.register key o) route ↔ Unserved W c route := by
  rw [register_eq]
  cases route <;> exact Iff.rfl

theorem correlationIdFor_eq (c : Pool V) (o : PostOptions) :
    ∃ n, (c.correlationIdFor o).1 = { c with correlationSequence := n } := by
  unfold Pool.correlationIdFor
  split
  · exact ⟨_, rfl⟩
  · exact ⟨_, rfl⟩

theorem generateCorrelationId_ne (c : Pool V) : c.generateCorrelationId.2 ≠ "" := by
  intro h
  have hlen := congrArg String.length h
  simp [Pool.generateCorrelationId, toString, String.length_append] at hlen

theorem correlationIdFor_eq_empty :
    (c.correlationIdFor o).2 = "" ↔ o.correlationId = some "" := by
  unfold Pool.correlationIdFor
  cases o.correlationId with
  | none => simp [generateCorrelationId_ne]
  | some id => simp

variable (prepared : Prepared V) (waiter : Waiter) (deadlineAt : Option ℚ) (o : PostOptions)
  (origin : Origin V) (detached : List ℕ)

/-- A branch that does not serve the post refuses it. -/
theorem takeRoute_unserved {route : Pool.PostRoute} (h : Unserved W c route) :
    ∃ c' e, SameTasks c c' ∧ c.takeRoute W T route prepared waiter deadlineAt o origin detached =
      c'.refuse waiter (.rejected e) := by
  cases route with
  | refuse error => exact ⟨c, error, SameTasks.refl c, rfl⟩
  | queue =>
    rcases enqueueOrReject_cases c prepared waiter deadlineAt o origin with
      ⟨ha, -⟩ | ⟨ha, -⟩ | ⟨-, e, hr⟩
    · exact absurd ha h
    · exact absurd ha h
    · exact ⟨c, e, SameTasks.refl c, hr⟩
  | worker id =>
    exact ⟨_, _, SameTasks.attempt W c, postToWorkerObj_refused W T h id prepared waiter o.signal origin detached⟩
  | fallback id =>
    exact ⟨_, _, (SameTasks.advance c).trans (SameTasks.attempt W c.advance),
      postToWorkerObj_refused W T (c := c.advance) h id prepared waiter none origin detached⟩
  | grow =>
    unfold Pool.takeRoute Pool.tryGrowPool
    dsimp only
    cases hcreates : W.creates c.nextWorkerId with
    | false =>
      have hadd : c.tryAddWorker W = ({ c with nextWorkerId := c.nextWorkerId + 1 }, none) := by
        unfold Pool.tryAddWorker
        rw [if_neg (by rw [hcreates]; exact Bool.false_ne_true)]
      rw [hadd]
      exact ⟨_, _, (by constructor <;> rfl), rfl⟩
    | true =>
      have hthrows : W.accepts c.attempts = false := by
        rcases h with h | h
        · rw [hcreates] at h
          cases h
        · exact h
      rw [tryAddWorker_created W hcreates]
      refine ⟨(c.addWorkerInstance.attempt W).1, "DataCloneError", by constructor <;> rfl, ?_⟩
      exact postToWorkerObj_refused W T (c := c.addWorkerInstance) hthrows c.nextWorkerId prepared
        waiter o.signal origin detached

theorem takeRoute_served {route : Pool.PostRoute} (h : ¬ Unserved W c route) :
    TookOn c (c.takeRoute W T route prepared waiter deadlineAt o origin detached).1 ∧
      (c.takeRoute W T route prepared waiter deadlineAt o origin detached).2 = answer waiter := by
  cases route with
  | refuse error => exact absurd trivial h
  | queue =>
    unfold Pool.takeRoute
    dsimp only
    rcases enqueueOrReject_cases c prepared waiter deadlineAt o origin with
      ⟨-, -, hr⟩ | ⟨-, -, hr⟩ | ⟨hno, -⟩
    · rw [hr]
      exact ⟨(leftOut_evict c).trans_tookOn (tookOn_pushItem _ _ _), rfl⟩
    · rw [hr]
      exact ⟨tookOn_pushItem _ _ _, rfl⟩
    · exact absurd hno h
  | worker id =>
    exact postToWorkerObj_served W T (Bool.eq_true_of_not_eq_false h) id prepared waiter o.signal
      origin detached
  | fallback id =>
    have hadvance : LeftOut c c.advance := (SameTasks.advance c).leftOut
    obtain ⟨htook, hr⟩ := postToWorkerObj_served W T (c := c.advance)
      (Bool.eq_true_of_not_eq_false h) id prepared waiter none origin detached
    exact ⟨hadvance.trans_tookOn htook, hr⟩
  | grow =>
    obtain ⟨hcreates, haccepts⟩ := not_or.mp h
    unfold Pool.takeRoute Pool.tryGrowPool
    dsimp only
    rw [tryAddWorker_created W (Bool.eq_true_of_not_eq_false hcreates)]
    have hadded : LeftOut c c.addWorkerInstance := ⟨rfl, rfl⟩
    obtain ⟨htook, hr⟩ := postToWorkerObj_served W T (c := c.addWorkerInstance)
      (Bool.eq_true_of_not_eq_false haccepts) c.nextWorkerId prepared waiter o.signal origin detached
    exact ⟨hadded.trans_tookOn htook, hr⟩

def Refuses (W : World) (c : Pool V) (least : Option Worker) (deadlineAt : Option ℚ) (o : PostOptions) :
    Prop :=
  (∃ d ∈ deadlineAt, d ≤ c.now) ∨ Unserved W c (c.routeOf least o.workerId)

theorem postFor_refused {least : Option Worker} (h : Refuses W c least deadlineAt o)
    (m : Message V) (tr : TransferList) :
    ∃ c' e, SameTasks c c' ∧
      c.postFor W T least m tr waiter deadlineAt o detached = c'.refuse waiter (.rejected e) := by
  unfold Pool.postFor
  by_cases hdead : ∃ d ∈ deadlineAt, d ≤ c.now
  · rw [if_pos (by simpa [Option.any_eq_true] using hdead)]
    exact ⟨c, "postMessage deadline elapsed", SameTasks.refl c, rfl⟩
  · rw [if_neg (by simpa [Option.any_eq_true] using hdead)]
    exact takeRoute_unserved W T _ waiter deadlineAt o _ detached (h.resolve_left hdead)

theorem postFor_served {least : Option Worker} (h : ¬ Refuses W c least deadlineAt o)
    (m : Message V) (tr : TransferList) :
    TookOn c (c.postFor W T least m tr waiter deadlineAt o detached).1 ∧
      (c.postFor W T least m tr waiter deadlineAt o detached).2 = answer waiter := by
  obtain ⟨hdead, hserved⟩ := not_or.mp h
  unfold Pool.postFor
  rw [if_neg (by simpa [Option.any_eq_true] using hdead)]
  exact takeRoute_served W T _ waiter deadlineAt o _ detached hserved

end PerformanceHelpers.PowerPool
