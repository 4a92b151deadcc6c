import PerformanceHelpers.PowerPool.Steps

/- Messages for one worker of a `PowerPool` (`src/helpers/powerPool.js`, the `workerId`
   of `_postMessageInner` and `postMessageBatch`).

   The worker that is asked for is looked up before anything else, and a post that
   finds it missing or full is refused. The adaptive limit comes first, though, and
   queues the post: what is taken from the queue later goes to any worker.

   What is proved:
     1. `targeted_iff` — over any run, messages for a worker go to that worker and are
        not queued, exactly when no post and no batch for a worker finds the adaptive
        limit reached and the queue open.
     2. `post_fails`, `batch_fails` — then a post that finds its worker missing or full,
        or the limit reached, fails at once. -/
namespace PerformanceHelpers.PowerPool

variable {V : Type} {W : World} {T : ObjectText V} {A : Allowed V} {c c' : Pool V}

/-- A message posted for a worker has gone to that worker, and none has been queued. -/
structure Targeted (c : Pool V) : Prop where
  posted : ∀ p ∈ c.posted, p.origin.route ≠ .stopThePress → ∀ t ∈ p.origin.target, p.worker = t
  enqueued : ∀ item ∈ c.enqueued, item.origin.route ≠ .stopThePress → item.origin.target = none

/-- A post for a worker is not queued: it is turned away, or the adaptive limit is not
reached, or the queue does not take it. -/
def KeepsTarget (c : Pool V) (m : Message V) (_ : TransferList) (o : PostOptions) (_ : List ℕ) : Prop :=
  o.workerId.isSome = true → (∃ deadlineAt, Enters c m o deadlineAt ∧ ∀ d ∈ deadlineAt, c.now < d) →
    c.AtLimit → c.taskQueueEnabled = true → ¬ QueueAccepts c

/-- No item of a batch for a worker finds the slots of the adaptive limit used up, where
the queue takes it. -/
def KeepsTargets (W : World) (T : ObjectText V) (c : Pool V) (items : List (Pool.BatchItem V))
    (o : PostOptions) : Prop :=
  ∀ id ∈ o.workerId, ¬ BatchQueues W T c items o id

/-! ## Messages for a worker -/

/-- Nothing that is for a worker is queued, but by `stopThePress`. -/
def Allowed.untargeted (V : Type) : Allowed V where
  item item := item.origin.route ≠ .stopThePress → item.origin.target = none
  request _ _ _ := True

theorem Moves.targeted (hA : ∀ item, A.item item → (Allowed.untargeted V).item item)
    (h : Moves W T A c c') (hok : QueueOk c) (hc : Targeted c) : Targeted c' := by
  induction h with
  | refl => exact hc
  | @tail d d' hmoves hstep ih =>
    have hkept := (Moves.queueOk hmoves hok).kept
    constructor
    · intro p hp hroute t ht
      rcases hstep.posted_cases with h | ⟨p', h, hp'⟩
      · exact ih.posted p (h ▸ hp) hroute t ht
      · rw [h] at hp
        rcases List.mem_append.mp hp with hp | hp
        · exact ih.posted p hp hroute t ht
        · obtain rfl := List.mem_singleton.mp hp
          rcases hp' with ⟨hdirect, -⟩ | ⟨item, hitem, horigin, -⟩
          · exact hdirect.2 t ht
          · -- an item of the queue is for no worker
            rw [horigin] at hroute ht
            rw [ih.enqueued item (hkept item hitem) hroute] at ht
            cases ht
    · intro item hitem
      rcases hstep.queue_cases with ⟨-, h⟩ | ⟨item', hitem', -, h⟩
      · exact ih.enqueued item (h ▸ hitem)
      · rw [h] at hitem
        rcases List.mem_append.mp hitem with hitem | hitem
        · exact ih.enqueued item hitem
        · obtain rfl := List.mem_singleton.mp hitem
          exact hA _ hitem'.allowed

/-- A post for a worker goes to the queue where the limit is reached. -/
theorem routeOf_target (least : Option Worker) (t : ℕ) :
    c.routeOf least (some t) = .queue ↔ c.AtLimit ∧ c.taskQueueEnabled = true := by
  unfold Pool.routeOf
  split
  · next hlimit =>
    split
    · next henabled => exact ⟨fun _ => ⟨hlimit, henabled⟩, fun _ => rfl⟩
    · next henabled => exact ⟨fun h => (by cases h), fun h => absurd h.2 henabled⟩
  · next hlimit =>
    refine ⟨fun h => ?_, fun h => absurd h.1 hlimit⟩
    split at h
    · cases h
    · rw [if_pos (show (some t).isSome = true from rfl)] at h
      cases h

variable {m : Message V} {o : PostOptions} {detached : List ℕ} {b : Pool.Batch V} {id : ℕ}

theorem keepsTarget_iff {tr : TransferList} :
    KeepsTarget c m tr o detached ↔ (Queues W c m o → o.workerId = none) := by
  cases ht : o.workerId with
  | none =>
    refine ⟨fun _ _ => rfl, fun _ h => ?_⟩
    rw [ht] at h
    cases h
  | some t =>
    have hroute := routeOf_target (c := c) (c.leastFor W (some t)).2 t
    unfold KeepsTarget Queues
    rw [ht]
    constructor
    · rintro h ⟨henters, hr, ha⟩
      obtain ⟨hlimit, henabled⟩ := hroute.mp hr
      exact absurd ha (h rfl henters hlimit henabled)
    · intro h _ henters hlimit henabled ha
      cases h ⟨henters, hroute.mpr ⟨hlimit, henabled⟩, ha⟩

theorem post_enqueues (h : Queues W c m o) (tr : TransferList)
    (detached : List ℕ) :
    ∃ item ∈ (c.postMessageInner W T m tr o detached).1.enqueued,
      item.origin.target = o.workerId ∧ item.origin.route = .post := by
  obtain ⟨⟨deadlineAt, henters, hlater⟩, hroute, ha⟩ := h
  have hsame := SameTasks.leastFor W c o.workerId
  -- what is queued once there is a waiter
  have hfor (d : Pool V) (m : Message V) (waiter : Waiter) (hnow : d.now = c.now)
      (hr : d.routeOf (c.leastFor W o.workerId).2 o.workerId = .queue) (ha : QueueAccepts d) :
      ∃ item ∈ (d.postFor W T (c.leastFor W o.workerId).2 m tr waiter deadlineAt o detached).1.enqueued,
        item.origin.target = o.workerId ∧ item.origin.route = .post := by
    unfold Pool.postFor
    rw [if_neg ?_, hr]
    · unfold Pool.takeRoute
      dsimp only
      refine ⟨d.queuedItem (prepareForTransfer T d.messageCodec m tr o.zeroCopy) waiter deadlineAt o
        (Pool.originOf m tr o waiter), ?_, rfl, rfl⟩
      rcases enqueueOrReject_cases d (prepareForTransfer T d.messageCodec m tr o.zeroCopy) waiter
        deadlineAt o (Pool.originOf m tr o waiter) with ⟨-, -, h⟩ | ⟨-, -, h⟩ | ⟨hno, -⟩
      · rw [h]
        unfold Pool.pushItem
        rw [(SameTasks.updateIdleState _).enqueued]
        exact List.mem_append_right _ List.mem_cons_self
      · rw [h]
        unfold Pool.pushItem
        rw [(SameTasks.updateIdleState _).enqueued]
        exact List.mem_append_right _ List.mem_cons_self
      · exact absurd ha hno
    · rw [Option.any_eq_true]
      rintro ⟨x, hx, hle⟩
      have hlt := hlater x hx
      rw [hnow] at hle
      exact absurd (of_decide_eq_true hle) (not_le.mpr hlt)
  unfold Pool.postMessageInner
  rw [if_neg (by rw [henters.running]; exact Bool.false_ne_true), henters.deadline]
  dsimp only
  have hsignal : o.signal.filter (· ∈ c.aborted) = none := by
    refine Option.filter_eq_none_iff.mpr fun s hs => ?_
    simpa using henters.signal s hs
  rw [hsignal]
  dsimp only
  split
  · next hwant =>
    unfold Pool.postRequest
    dsimp only
    rw [if_pos (henters.plain hwant)]
    obtain ⟨n, hn⟩ := correlationIdFor_eq (c.leastFor W o.workerId).1 o
    apply hfor
    · rw [register_eq, hn]
      exact leastFor_now c o.workerId
    · rw [routeOf_register, hn]
      exact hroute
    · rw [register_eq, hn]
      exact hsame.queueAccepts.mpr ha
  · exact hfor _ m none (leastFor_now c o.workerId) hroute (hsame.queueAccepts.mpr ha)

theorem collected_step (htarget : o.workerId = some id) (b : Pool.Batch V)
    (prepared : Prepared V) (origin : Origin V) :
    b.queuedPrepared <+: (b.step W T prepared o origin).queuedPrepared ∧
      (b.adaptiveSlots = some 0 → b.pool.taskQueueEnabled = true →
        (b.step W T prepared o origin).queuedPrepared ≠ []) := by
  by_cases hslots : b.adaptiveSlots = some 0
  · unfold Pool.Batch.step
    rw [if_pos hslots]
    split
    · exact ⟨List.prefix_append _ _, fun _ _ => List.append_ne_nil_of_right_ne_nil _ (List.cons_ne_nil _ _)⟩
    · next hdisabled => exact ⟨List.prefix_rfl, fun _ h => absurd h hdisabled⟩
  · refine ⟨?_, fun h => absurd h hslots⟩
    rcases (targeted_step (W := W) (T := T) htarget b prepared origin).2.2 with h | ⟨h, -⟩
    · rw [h]
    · exact absurd h hslots

theorem collected_loop (htarget : o.workerId = some id) (b : Pool.Batch V)
    (items : List (Pool.BatchItem V)) :
    b.queuedPrepared <+: (Pool.batchLoop W T o b items).queuedPrepared ∧
      (b.pool.taskQueueEnabled = true →
        (∃ k < items.length, (Pool.batchLoop W T o b (items.take k)).adaptiveSlots = some 0) →
          (Pool.batchLoop W T o b items).queuedPrepared ≠ []) := by
  induction items generalizing b with
  | nil => exact ⟨List.prefix_rfl, fun _ ⟨k, hk, _⟩ => absurd hk (Nat.not_lt_zero k)⟩
  | cons it items ih =>
    obtain ⟨hfirst, hcollect⟩ := collected_step (W := W) (T := T) htarget b
      (prepareBuffers T b.pool.messageCodec it.1 it.2 o.zeroCopy) (Pool.batchOrigin it o)
    have hconfig := (targeted_step (W := W) (T := T) htarget b
      (prepareBuffers T b.pool.messageCodec it.1 it.2 o.zeroCopy) (Pool.batchOrigin it o)).2.1
    obtain ⟨hrest, hslots⟩ := ih (b.step W T
      (prepareBuffers T b.pool.messageCodec it.1 it.2 o.zeroCopy) o (Pool.batchOrigin it o))
    refine ⟨hfirst.trans hrest, fun henabled hk => ?_⟩
    obtain ⟨k, hk, hzero⟩ := hk
    cases k with
    | zero =>
      intro hnone
      rw [show Pool.batchLoop W T o b (it :: items) = Pool.batchLoop W T o (b.step W T
        (prepareBuffers T b.pool.messageCodec it.1 it.2 o.zeroCopy) o (Pool.batchOrigin it o)) items
        from rfl] at hnone
      rw [hnone] at hrest
      exact hcollect hzero henabled (List.prefix_nil.mp hrest)
    | succ k =>
      refine hslots ?_ ⟨k, Nat.lt_of_succ_lt_succ hk, hzero⟩
      rw [show ∀ c : Pool V, c.taskQueueEnabled = c.toConfig.taskQueueEnabled from fun _ => rfl, hconfig]
      exact henabled

theorem reserved_of_admits {n : ℕ} (h : Admits c) (hn : 0 < n) : 0 < (c.reserveQueueSlots n).2 := by
  have hevicted (k : ℕ) : ∀ c : Pool V, (Pool.evictMany k c).queue.length = c.queue.length - k := by
    induction k with
    | zero => exact fun c => rfl
    | succ k ih =>
      intro c
      rw [Pool.evictMany, ih]
      by_cases hnil : c.queue = []
      · rw [evict_of_nil hnil, hnil]
        simp
      · have hlen := length_evict hnil
        omega
  unfold Pool.reserveQueueSlots
  cases hcap : c.maxQueueLength with
  | none => exact hn
  | some cap =>
    dsimp only
    split
    · exact hn
    · rcases h cap hcap with hlt | ⟨hpolicy, hpos⟩
      · split
        · dsimp only
          rw [hevicted]
          omega
        · exact Nat.sub_pos_of_lt hlt
      · rw [if_pos hpolicy]
        dsimp only
        rw [hevicted]
        omega

theorem batch_enqueues {items : List (Pool.BatchItem V)}
    (htarget : o.workerId = some id) (h : BatchQueues W T c items o id) :
    ∃ item ∈ (c.fireAndForget W T items o).1.enqueued,
      item.origin.target = some id ∧ item.origin.route = .batch := by
  obtain ⟨hworker, henabled, hadmits, hslots⟩ := h
  obtain ⟨w, hw⟩ := Option.isSome_iff_exists.mp hworker
  have hwid : w.id = id := by simpa using List.find?_some hw
  have hstart : BatchSoFar W T (Allowed.untargeted V) c o
      ⟨c, some id, c.adaptiveLimitNow.map (· - c.activeTasks), [], [], false⟩ := by
    refine ⟨.refl, SameMoment.refl c, ?_, fun q hq => absurd hq List.not_mem_nil⟩
    rintro t ht id' ⟨⟩
    rw [htarget] at ht
    exact Option.some.inj ht
  obtain ⟨hqueue, hconfig, -⟩ := targeted_loop (W := W) (T := T) htarget
    ⟨c, some id, c.adaptiveLimitNow.map (· - c.activeTasks), [], [], false⟩ items
  have hcollected := (collected_loop (W := W) (T := T) htarget
    ⟨c, some id, c.adaptiveLimitNow.map (· - c.activeTasks), [], [], false⟩ items).2 henabled hslots
  have hloop := hstart.loop (fun _ _ => trivial) items
  unfold Pool.fireAndForget
  rw [htarget]
  dsimp only
  rw [hw]
  dsimp only
  rw [hwid]
  generalize Pool.batchLoop W T o ⟨c, some id, c.adaptiveLimitNow.map (· - c.activeTasks), [], [], false⟩
    items = b at hqueue hconfig hcollected hloop ⊢
  have hadmits' : Admits b.pool := (admits_congr hqueue hconfig).mpr hadmits
  have hreserved := reserved_of_admits hadmits' (List.length_pos_of_ne_nil hcollected)
  -- the first of what has been collected is queued
  obtain ⟨q, qs, hqs⟩ := List.exists_cons_of_ne_nil hcollected
  have hq : BatchItemOk o q.2 := hloop.queued q (hqs ▸ List.mem_cons_self)
  have hmem : q.2 ∈ b.enqueue.pool.enqueued := by
    have htake : q.2 ∈ (b.queuedPrepared.take (b.pool.reserveQueueSlots b.queuedPrepared.length).2).map
        (·.2) := by
      obtain ⟨n, hn⟩ := Nat.exists_eq_succ_of_ne_zero hreserved.ne'
      rw [hn, hqs]
      exact List.mem_cons_self
    unfold Pool.Batch.enqueue
    rw [if_neg hcollected]
    dsimp only
    rw [if_neg (List.ne_nil_of_mem htake)]
    exact List.mem_append_right _ htake
  refine ⟨q.2, ?_, hq.queued.target.trans htarget, hq.queued.route⟩
  unfold Pool.Batch.finish
  dsimp only
  split
  · rw [(SameTasks.updateIdleState _).enqueued]
    exact hmem
  · exact hmem

/-! ## Runs -/

/-- What is well now was well before. -/
theorem Moves.targeted_before (h : Moves W T A c c') (hc : Targeted c') : Targeted c := by
  induction h with
  | refl => exact hc
  | tail _ hstep ih =>
    refine ih ⟨fun p hp => hc.posted p ?_, fun item hitem => hc.enqueued item ?_⟩
    · rcases hstep.posted_cases with h | ⟨p', h, -⟩
      · exact h ▸ hp
      · exact h ▸ List.mem_append_left _ hp
    · rcases hstep.queue_cases with ⟨-, h⟩ | ⟨item', -, -, h⟩
      · exact h ▸ hitem
      · exact h ▸ List.mem_append_left _ hitem

section
variable (hok : QueueOk c) (hc : Targeted c)
include hok hc

theorem targeted_post_iff (m : Message V) (tr : TransferList)
    (o : PostOptions) (detached : List ℕ) :
    Targeted (c.postMessageInner W T m tr o detached).1 ↔ KeepsTarget c m tr o detached := by
  rw [keepsTarget_iff (W := W)]
  constructor
  · intro h hqueues
    obtain ⟨item, hitem, htarget, hroute⟩ := post_enqueues (T := T) hqueues tr detached
    rw [← htarget]
    exact h.enqueued item hitem (by rw [hroute]; exact Route.noConfusion)
  · intro h
    have hmoves : Moves W T (Allowed.untargeted V) c (c.postMessageInner W T m tr o detached).1 :=
      postMessageInner_moves hok.bounded (fun _ => trivial)
        (fun hqueues _ hitem _ => hitem.target.trans (h hqueues)) fun _ _ _ _ _ => trivial
    exact hmoves.targeted (fun _ hitem => hitem) hok hc

theorem targeted_batch_iff (items : List (Pool.BatchItem V))
    (o : PostOptions) :
    Targeted (c.fireAndForget W T items o).1 ↔ KeepsTargets W T c items o := by
  constructor
  · intro h id hid hqueues
    obtain ⟨item, hitem, htarget, hroute⟩ := batch_enqueues hid hqueues
    have hnone := h.enqueued item hitem (by rw [hroute]; exact Route.noConfusion)
    rw [htarget] at hnone
    cases hnone
  · intro h
    have hmoves : Moves W T (Allowed.untargeted V) c (c.fireAndForget W T items o).1 := by
      refine fireAndForget_moves hok.bounded ?_ fun _ _ => trivial
      intro hqueues _ item hitem _
      cases ht : o.workerId with
      | none => exact hitem.target.trans ht
      | some id => exact absurd (hqueues id ht) (h id ht)
    exact hmoves.targeted (fun _ hitem => hitem) hok hc

theorem targeted_each {posts : List (Pool.BatchItem V × PostOptions)}
    (h : Targeted (c.postEach W T detached posts).1) :
    EachMeets W T KeepsTarget detached c posts := by
  induction posts generalizing c with
  | nil => trivial
  | cons p posts ih =>
    have hok' := (post_moves (W := W) (T := T) hok.bounded p.1.1 p.1.2 p.2 detached).queueOk hok
    have hrest (posts : List (Pool.BatchItem V × PostOptions)) : ∀ c : Pool V, QueueOk c →
        Targeted (c.postEach W T detached posts).1 → Targeted c := by
      induction posts with
      | nil => exact fun _ _ h => h
      | cons p posts ih =>
        intro c hok h
        have hfirst := post_moves (W := W) (T := T) hok.bounded p.1.1 p.1.2 p.2 detached
        rw [Pool.postEach] at h
        dsimp only at h
        split at h
        · exact hfirst.targeted_before h
        · exact hfirst.targeted_before (ih _ (hfirst.queueOk hok) h)
    rw [Pool.postEach] at h
    dsimp only at h
    split at h
    · next e herror =>
      refine ⟨(targeted_post_iff hok hc p.1.1 p.1.2 p.2 detached).mp h, fun hnone => ?_⟩
      rw [herror] at hnone
      cases hnone
    · have hmid := hrest posts _ hok' h
      exact ⟨(targeted_post_iff hok hc p.1.1 p.1.2 p.2 detached).mp hmid, fun _ => ih hok' hmid h⟩

theorem targeted_step_iff (e : Event V) :
    Targeted (step W T c e) ↔ EventMeets W T KeepsTarget (KeepsTargets W T) c e := by
  constructor
  · intro h
    cases e with
    | post m tr o detached => exact (targeted_post_iff hok hc m tr o detached).mp h
    | batch items o ids detached =>
      intro hrunning
      rw [step] at h
      unfold Pool.postMessageBatch at h
      rw [if_neg (by rw [hrunning]; exact Bool.false_ne_true)] at h
      split
      · next hwant =>
        rw [if_pos hwant] at h
        intro hopens
        cases ids with
        | none =>
          dsimp only at h
          rw [if_neg hopens] at h
          exact targeted_each hok hc h
        | some ids =>
          dsimp only at h
          rw [if_pos (show c.IdsOk ids from hopens)] at h
          exact targeted_each hok hc h
      · next hwant =>
        rw [if_neg hwant] at h
        exact (targeted_batch_iff hok hc items o).mp h
    | stopThePress recreate m tr o detached =>
      cases recreate with
      | true =>
        have hreset := resetPool_moves (W := W) (T := T) (A := Allowed.untargeted V) (c := c) true
        have hc' := hreset.targeted (fun _ hitem => hitem) hok hc
        exact (targeted_post_iff (hreset.queueOk hok) hc' m tr o detached).mp h
      | false => trivial
    | _ => trivial
  · intro h
    refine (step_keeps (I := fun c => QueueOk c ∧ Targeted c) (fun c hc => hc.1.bounded) ?_ ?_ ?_
      ⟨hok, hc⟩ h).2
    · intro c c' hc h
      exact ⟨h.queueOk hc.1, h.targeted (A := Allowed.rest V) (fun item hitem hroute => absurd hitem.1 hroute)
        hc.1 hc.2⟩
    · intro c m tr o detached hc h
      exact ⟨(post_moves hc.1.bounded m tr o detached).queueOk hc.1,
        (targeted_post_iff hc.1 hc.2 m tr o detached).mpr h⟩
    · intro c items o hc h
      exact ⟨(batch_moves hc.1.bounded items o).queueOk hc.1, (targeted_batch_iff hc.1 hc.2 items o).mpr h⟩

end

/-! ## Failing at once -/

/-- A worker that is missing or full, or an adaptive limit that is reached. -/
def NoRoomAt (c : Pool V) (t : ℕ) : Prop :=
  c.AtLimit ∨ ∀ w ∈ c.worker? t, ¬ Under c.maxTasksPerWorker w.tasks

/-- A post has failed: `false`, an error, or a promise that has been rejected. -/
def Failed (r : Pool V × Result) : Prop :=
  match r.2 with
  | .refused | .threw _ => True
  | .promise n => ∃ s, s ≠ .resolved ∧ (n, s) ∈ r.1.settled
  | .accepted => False

theorem failed_refuse {key : String} {n : ℕ} {waiter : Waiter} (hw : waiter = none ∨ waiter = some (key, n))
    (hentry : waiter = some (key, n) → ∃ e, c.entryFor? key = some e ∧ e.promise = n) (error : String) :
    Failed (c.refuse waiter (.rejected error)) := by
  rcases hw with rfl | rfl
  · exact trivial
  · obtain ⟨e, he, hn⟩ := hentry rfl
    unfold Pool.refuse
    dsimp only
    split
    · exact trivial
    · rw [cleanupPendingResponse_eq, settlementOf, he]
      exact ⟨.rejected error, by rintro ⟨⟩, List.mem_append_right _ (hn ▸ List.mem_singleton_self _)⟩

theorem postFor_fails {least : Option Worker} (m : Message V) (tr : TransferList) (waiter : Waiter)
    {deadlineAt : Option ℚ} (detached : List ℕ) (h : Refuses W c least deadlineAt o)
    (hentry : ∀ key n, waiter = some (key, n) → ∃ e, c.entryFor? key = some e ∧ e.promise = n) :
    LeftOut c (c.postFor W T least m tr waiter deadlineAt o detached).1 ∧
      Failed (c.postFor W T least m tr waiter deadlineAt o detached) := by
  obtain ⟨c', e, hsame, hr⟩ := postFor_refused W T waiter deadlineAt o detached h m tr
  rw [hr]
  have hleft := leftOut_refuse c' waiter (.rejected e)
  refine ⟨⟨hleft.1.trans hsame.posted, hleft.2.trans hsame.enqueued⟩, ?_⟩
  have hentry' : ∀ key n, waiter = some (key, n) → ∃ e, c'.entryFor? key = some e ∧ e.promise = n := by
    unfold Pool.entryFor? at hentry ⊢
    rw [hsame.pending]
    exact hentry
  cases waiter with
  | none => exact trivial
  | some w => exact failed_refuse (Or.inr rfl) (fun _ => hentry' w.1 w.2 rfl) e

theorem post_fails {t : ℕ} {tr : TransferList}
    (htarget : o.workerId = some t) (hkeeps : KeepsTarget c m tr o detached) (hroom : NoRoomAt c t) :
    LeftOut c (c.postMessageInner W T m tr o detached).1 ∧
      Failed (c.postMessageInner W T m tr o detached) := by
  have hleast : c.leastFor W o.workerId = (c, c.worker? t) := by
    rw [htarget]
    rfl
  unfold Pool.postMessageInner
  split
  · exact ⟨⟨rfl, rfl⟩, trivial⟩
  · next hrunning =>
    split
    · exact ⟨⟨rfl, rfl⟩, trivial⟩
    · next deadlineAt hdeadline =>
      rw [hleast]
      dsimp only
      split
      · next s hs =>
        unfold Pool.refuseAborted
        split
        · exact ⟨⟨rfl, rfl⟩, .aborted s, by rintro ⟨⟩, List.mem_append_right _ (List.mem_singleton_self _)⟩
        · exact ⟨⟨rfl, rfl⟩, trivial⟩
      · next hs =>
        have hsignal : ∀ s ∈ o.signal, s ∉ c.aborted := by
          intro s hsig hab
          have hnot := Option.filter_eq_none_iff.mp hs s hsig
          simp [hab] at hnot
        -- whatever branch is taken does not serve the post
        have hrefuses (hplain : o.wantResponse = true → m.isPlainObject = true) :
            Refuses W c (c.worker? t) deadlineAt o := by
          by_cases hlater : ∀ d ∈ deadlineAt, c.now < d
          · refine Or.inr ?_
            rw [htarget]
            unfold Pool.routeOf
            by_cases hlimit : c.AtLimit
            · rw [if_pos hlimit]
              by_cases henabled : c.taskQueueEnabled = true
              · rw [if_pos henabled]
                exact hkeeps (by rw [htarget]; rfl) ⟨deadlineAt, ⟨by simpa using hrunning, hdeadline,
                  hsignal, hplain⟩, hlater⟩ hlimit henabled
              · rw [if_neg henabled]
                exact trivial
            · rw [if_neg hlimit]
              have hnone : (c.worker? t).filter (fun w => Under c.maxTasksPerWorker w.tasks) = none :=
                Option.filter_eq_none_iff.mpr fun w hw => by simpa using hroom.resolve_left hlimit w hw
              rw [hnone]
              exact trivial
          · refine Or.inl ?_
            push Not at hlater
            exact hlater
        split
        · next hwant =>
          unfold Pool.postRequest
          dsimp only
          split
          · next hplain =>
            have hfails := postFor_fails (T := T) (Pool.withCorrelationId T m (c.correlationIdFor o).2) tr
              (some ((c.correlationIdFor o).2, (c.correlationIdFor o).1.nextPromise)) detached
              ((refuses_register W c (c.worker? t) deadlineAt o).mpr
                (hrefuses fun _ => hplain)) ?_
            · have hreg := leftOut_register (c.correlationIdFor o).1 (c.correlationIdFor o).2 o
              have hid := SameTasks.correlationIdFor c o
              exact ⟨⟨hfails.1.1.trans (hreg.1.trans hid.posted),
                hfails.1.2.trans (hreg.2.trans hid.enqueued)⟩, hfails.2⟩
            · rintro key n ⟨⟩
              exact entry_register _ _ o
          · exact ⟨(SameTasks.correlationIdFor c o).leftOut, trivial⟩
        · next hwant =>
          exact postFor_fails _ _ _ _ (hrefuses fun h => absurd h hwant) fun key n h => by cases h

theorem length_refuseFrom (rs : List Bool) (places : List ℕ) :
    (Pool.refuseFrom rs places).length = rs.length := by
  unfold Pool.refuseFrom
  induction places generalizing rs with
  | nil => rfl
  | cons i places ih => rw [List.foldl_cons, ih, List.length_set]

theorem refuseFrom_append {rs : List Bool} {places : List ℕ} (h : ∀ i ∈ places, i < rs.length)
    (r : Bool) : Pool.refuseFrom (rs ++ [r]) places = Pool.refuseFrom rs places ++ [r] := by
  unfold Pool.refuseFrom
  induction places generalizing rs with
  | nil => rfl
  | cons i places ih =>
    have hi := h i List.mem_cons_self
    rw [List.foldl_cons, List.foldl_cons, List.set_append_left _ _ hi]
    refine ih fun j hj => ?_
    rw [List.length_set]
    exact h j (List.mem_cons_of_mem _ hj)

/-- The loop of a batch to a worker so far: the items it has answered `true` and not
collected are those it has posted. -/
structure Tally (c : Pool V) (b : Pool.Batch V) : Prop where
  places : ∀ q ∈ b.queuedPrepared, q.1 < b.results.length
  posts : ∃ ps, b.pool.posted = c.posted ++ ps ∧
    (Pool.refuseFrom b.results (b.queuedPrepared.map (·.1))).count true = ps.length

namespace Tally

variable {b : Pool.Batch V}

theorem mem_places (h : Tally c b) : ∀ i ∈ b.queuedPrepared.map (·.1), i < b.results.length := by
  intro i hi
  obtain ⟨q, hq, rfl⟩ := List.mem_map.mp hi
  exact h.places q hq

theorem answer {b' : Pool.Batch V} {r : Bool} (h : Tally c b) (ps : List (Post V))
    (hqueued : b'.queuedPrepared = b.queuedPrepared) (hresults : b'.results = b.results)
    (hposted : b'.pool.posted = b.pool.posted ++ ps) (hr : [r].count true = ps.length) :
    Tally c (b'.answer r) := by
  constructor
  · intro q hq
    have hlt := h.places q (hqueued ▸ hq)
    show q.1 < (b'.results ++ [r]).length
    rw [hresults, List.length_append]
    exact Nat.lt_add_right _ hlt
  · obtain ⟨ps', hps', hcount⟩ := h.posts
    refine ⟨ps' ++ ps, ?_, ?_⟩
    · rw [← List.append_assoc, ← hps']
      exact hposted
    · show (Pool.refuseFrom (b'.results ++ [r]) (b'.queuedPrepared.map (·.1))).count true = _
      rw [hqueued, hresults, refuseFrom_append h.mem_places, List.count_append, hcount, hr,
        List.length_append]

theorem refused (h : Tally c b) : Tally c (b.answer false) :=
  h.answer [] rfl rfl (List.append_nil _).symm rfl

theorem collect (h : Tally c b) (prepared : Prepared V) (o : PostOptions) (origin : Origin V) :
    Tally c (b.collect prepared o origin) := by
  constructor
  · intro q hq
    show q.1 < (b.results ++ [true]).length
    rw [List.length_append]
    rcases List.mem_append.mp hq with hq | hq
    · exact Nat.lt_add_right _ (h.places q hq)
    · obtain rfl := List.mem_singleton.mp hq
      exact Nat.lt_add_one _
  · obtain ⟨ps, hps, hcount⟩ := h.posts
    refine ⟨ps, hps, ?_⟩
    show (Pool.refuseFrom (b.results ++ [true]) ((b.queuedPrepared ++
      [(b.results.length, b.pool.batchItem prepared o origin)]).map (·.1))).count true = _
    have happend := refuseFrom_append h.mem_places true
    unfold Pool.refuseFrom at happend ⊢
    rw [List.map_append, List.foldl_append, happend]
    show ((Pool.refuseFrom b.results (b.queuedPrepared.map (·.1)) ++ [true]).set b.results.length
      false).count true = _
    rw [← length_refuseFrom b.results (b.queuedPrepared.map (·.1)), List.set_append_right _ _ le_rfl,
      Nat.sub_self, List.count_append, hcount]
    rfl

theorem dispatch (h : Tally c b) (id : ℕ) (prepared : Prepared V) (origin : Origin V) :
    Tally c (b.dispatch W T id prepared origin) := by
  unfold Pool.Batch.dispatch
  dsimp only
  cases haccepts : W.accepts b.pool.attempts with
  | true =>
    obtain ⟨wire, hdispatch⟩ := dispatchToWorker_of_accepts T haccepts id prepared none none false origin
    obtain ⟨ws, bs, bt, hrecord⟩ := recordPost_eq (b.pool.attempt W).1
      (b.pool.postTo id wire false origin) none true
    rw [hdispatch, if_pos rfl]
    apply h.answer [b.pool.postTo id wire false origin]
    · rfl
    · rfl
    · show (((b.pool.attempt W).1.recordPost (b.pool.postTo id wire false origin) none
        true).listenForAbort none none).posted = _
      rw [(leftOut_listen _ none none).1, hrecord]
      rfl
    · rfl
  | false =>
    rw [dispatchToWorker_of_throws T haccepts, if_neg Bool.false_ne_true]
    apply h.answer []
    · rfl
    · rfl
    · exact (List.append_nil _).symm
    · rfl

theorem step {o : PostOptions} {id : ℕ} (htarget : o.workerId = some id) (h : Tally c b)
    (prepared : Prepared V) (origin : Origin V) : Tally c (b.step W T prepared o origin) := by
  unfold Pool.Batch.step
  split
  · split
    · exact h.collect prepared o origin
    · exact h.refused
  · dsimp only
    have h' : Tally c { b with chosen := b.chosen.bind b.pool.roomAt } := ⟨h.places, h.posts⟩
    split
    · exact h'.dispatch _ prepared origin
    · rw [if_neg (by rw [htarget]; rintro ⟨⟨⟩, -⟩)]
      unfold Pool.Batch.saturated
      rw [if_pos (by rw [htarget]; rfl)]
      exact h'.refused

theorem loop {o : PostOptions} {id : ℕ} (htarget : o.workerId = some id) (h : Tally c b)
    (items : List (Pool.BatchItem V)) : Tally c (Pool.batchLoop W T o b items) := by
  unfold Pool.batchLoop
  induction items generalizing b with
  | nil => exact h
  | cons it items ih => exact ih (h.step htarget _ _)

end Tally

structure Stuck (c : Pool V) (id : ℕ) (b : Pool.Batch V) : Prop where
  pool : b.pool = c
  chosen : ∀ id' ∈ b.chosen, id' = id
  noRoom : b.adaptiveSlots = some 0 ∨ c.roomAt id = none

theorem Stuck.step (htarget : o.workerId = some id)
    (h : Stuck c id b) (prepared : Prepared V) (origin : Origin V) :
    Stuck c id (b.step W T prepared o origin) := by
  unfold Pool.Batch.step
  split
  · split
    · exact ⟨h.pool, h.chosen, h.noRoom⟩
    · exact ⟨h.pool, h.chosen, h.noRoom⟩
  · next hslots =>
    have hfull := h.noRoom.resolve_left hslots
    have hnone : b.chosen.bind b.pool.roomAt = none := by
      rw [Option.bind_eq_none_iff]
      intro id' hid'
      rw [h.chosen id' hid', h.pool]
      exact hfull
    dsimp only
    have hleast : Pool.Batch.least { b with chosen := b.chosen.bind b.pool.roomAt } o = none := by
      unfold Pool.Batch.least
      rw [hnone, htarget]
      rfl
    rw [hleast]
    dsimp only
    rw [if_neg (by rw [htarget]; rintro ⟨⟨⟩, -⟩)]
    unfold Pool.Batch.saturated
    rw [if_pos (by rw [htarget]; rfl)]
    refine ⟨h.pool, ?_, h.noRoom⟩
    intro id' hid'
    rw [show b.chosen.bind b.pool.roomAt = some id' from hid'] at hnone
    cases hnone

theorem Stuck.loop (htarget : o.workerId = some id)
    (h : Stuck c id b) (items : List (Pool.BatchItem V)) :
    Stuck c id (Pool.batchLoop W T o b items) := by
  unfold Pool.batchLoop
  induction items generalizing b with
  | nil => exact h
  | cons it items ih => exact ih (h.step htarget _ _)

theorem noRoomAt_iff : NoRoomAt c id ↔
    c.adaptiveLimitNow.map (· - c.activeTasks) = some 0 ∨ c.roomAt id = none := by
  unfold NoRoomAt Pool.AtLimit Pool.roomAt
  rw [Option.map_eq_none_iff, Option.filter_eq_none_iff, Option.map_eq_some_iff]
  refine or_congr ?_ ?_
  · simp only [Nat.sub_eq_zero_iff_le]
    exact Iff.rfl
  · simp

theorem posted_reserveQueueSlots (c : Pool V) (n : ℕ) : (c.reserveQueueSlots n).1.posted = c.posted := by
  have hevicted (k : ℕ) : ∀ c : Pool V, (Pool.evictMany k c).posted = c.posted := by
    induction k with
    | zero => exact fun c => rfl
    | succ k ih => exact fun c => (ih c.evict).trans (leftOut_evict c).1
  unfold Pool.reserveQueueSlots
  split
  · rfl
  · split
    · rfl
    · dsimp only
      split
      · exact hevicted _ c
      · rfl

/-- What a loop has collected is refused where the queue has no room. -/
theorem enqueue_refuses (h : b.queuedPrepared ≠ [] → ¬ Admits b.pool) :
    b.enqueue.results = Pool.refuseFrom b.results (b.queuedPrepared.map (·.1)) ∧
      b.enqueue.pool.posted = b.pool.posted := by
  unfold Pool.Batch.enqueue
  split
  · next hnone => exact ⟨by rw [hnone]; rfl, rfl⟩
  · next hsome =>
    have hzero : (b.pool.reserveQueueSlots b.queuedPrepared.length).2 = 0 := by
      by_contra hpos
      exact h hsome (admits_of_reserved (Nat.pos_of_ne_zero hpos) (List.length_pos_of_ne_nil hsome))
    dsimp only
    rw [hzero, List.take_zero, List.map_nil, if_pos rfl, List.drop_zero]
    exact ⟨rfl, posted_reserveQueueSlots _ _⟩

/-- A batch for a worker that is not queued is answered `true` for what it has posted, and
posts nothing where there is no room at that worker. -/
theorem batch_fails {items : List (Pool.BatchItem V)}
    (htarget : o.workerId = some id) (hkeeps : KeepsTargets W T c items o) :
    ∃ posts, (c.fireAndForget W T items o).1.posted = c.posted ++ posts ∧
      (c.fireAndForget W T items o).2.count .accepted = posts.length ∧ (NoRoomAt c id → posts = []) := by
  cases hw : c.worker? id with
  | none =>
    have hrefused : c.fireAndForget W T items o = (c, items.map fun _ => .refused) := by
      unfold Pool.fireAndForget
      rw [htarget]
      dsimp only
      rw [hw]
    rw [hrefused]
    refine ⟨[], (List.append_nil _).symm, ?_, fun _ => rfl⟩
    exact List.count_eq_zero.mpr (by simp)
  | some w =>
    have hwid : w.id = id := by simpa using List.find?_some hw
    have hrun : c.fireAndForget W T items o = (targetedLoop W T c o id items).enqueue.finish := by
      unfold Pool.fireAndForget targetedLoop
      rw [htarget]
      dsimp only
      rw [hw, ← hwid]
    have htally : Tally c (targetedLoop W T c o id items) := by
      refine Tally.loop htarget ⟨fun q hq => absurd hq List.not_mem_nil, [], ?_, rfl⟩ items
      exact (List.append_nil _).symm
    have hstuck (hroom : NoRoomAt c id) : Stuck c id (targetedLoop W T c o id items) := by
      have hstart : Stuck c id ⟨c, some id, c.adaptiveLimitNow.map (· - c.activeTasks), [], [], false⟩ := by
        refine ⟨rfl, ?_, noRoomAt_iff.mp hroom⟩
        rintro id' ⟨⟩
        rfl
      exact hstart.loop htarget items
    have hfull : (targetedLoop W T c o id items).queuedPrepared ≠ [] →
        ¬ Admits (targetedLoop W T c o id items).pool := by
      obtain ⟨hqueue, hconfig, hcollected⟩ := targeted_loop (W := W) (T := T) htarget
        ⟨c, some id, c.adaptiveLimitNow.map (· - c.activeTasks), [], [], false⟩ items
      intro hsome hadmits
      obtain ⟨henabled, hk⟩ := hcollected.resolve_left hsome
      refine hkeeps id htarget ⟨by rw [hw]; rfl, henabled, ?_, hk⟩
      exact (admits_congr hqueue hconfig).mp hadmits
    rw [hrun]
    generalize targetedLoop W T c o id items = b at htally hstuck hfull
    obtain ⟨hresults, hposted⟩ := enqueue_refuses hfull
    obtain ⟨posts, hposts, hcount⟩ := htally.posts
    refine ⟨posts, ?_, ?_, fun hroom => ?_⟩
    · unfold Pool.Batch.finish
      dsimp only
      split
      · rw [(SameTasks.updateIdleState _).posted, hposted, hposts]
      · rw [hposted, hposts]
    · unfold Pool.Batch.finish
      dsimp only
      rw [hresults, ← hcount]
      refine List.count_map_of_injective _ (fun r : Bool => if r then Result.accepted else .refused) ?_ true
      intro r r' h
      cases r <;> cases r' <;> simp at h ⊢
    · rw [(hstuck hroom).pool] at hposts
      exact List.append_right_eq_self.mp hposts.symm

theorem targeted_new (W : World) (config : Config) (minSize maxSize initial sequence : ℕ) :
    Targeted (Pool.new W config minSize maxSize initial sequence : Pool V) := by
  have h := new_same (V := V) W config minSize maxSize initial sequence
  constructor
  · rw [h.posted]
    exact fun p hp => absurd hp List.not_mem_nil
  · rw [h.enqueued]
    exact fun item hitem => absurd hitem List.not_mem_nil

/-- A pool of two workers that lets one task be under way. -/
def limited : Pool (Option (List UInt8)) :=
  .new .sound { autoScale := some ⟨true, 0, 0⟩ } 2 2 2 0

end PerformanceHelpers.PowerPool
