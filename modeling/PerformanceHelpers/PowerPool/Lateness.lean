import PerformanceHelpers.PowerPool.Eviction

/- Deadlines and abort signals of the tasks of a `PowerPool` (`src/helpers/powerPool.js`,
   `_postMessageInner`, `postMessageBatch`, `worker.onmessage` and
   `_dispatchQueuedTasks`).

   A post is checked at the door, and again where a drain takes it from the queue. A
   batch that awaits nothing is checked at neither: its items reach a worker, or the
   queue, without the deadline and the signal it was given. A drain tells the waiter of
   a late item by its correlation id, which is not kept where it is empty.

   What is proved:
     1. `Moves.timely` — moves that queue what carries its own deadline post nothing
        late, and tell whoever waits for what they discard.
     2. `dispatches_in_time` — in every run whose batches are in time and queue nothing
        that could be late, and whose requests under an empty id are neither late nor
        queued with a deadline or a signal, no task is posted late and each late request
        is rejected. -/
namespace PerformanceHelpers.PowerPool

variable {V : Type} {W : World} {T : ObjectText V} {A : Allowed V} {c c' : Pool V}

/-! ## What is late -/

def Elapsed (now : ℚ) : Number → Prop
  | .finite d => d ≤ now
  | .negInfinity => True
  | .infinity | .nan => False

def InTime (deadlineAt : Option Number) (signal : Option ℕ) (now : ℚ) (aborted : List ℕ) : Prop :=
  (∀ d ∈ deadlineAt, ¬ Elapsed now d) ∧ ∀ s ∈ signal, s ∉ aborted

def Post.InTime (p : Post V) : Prop :=
  PowerPool.InTime p.origin.deadlineAt p.origin.signal p.now p.aborted

def QueueItem.Heeds (item : QueueItem V) : Prop :=
  ∀ now aborted, item.live now aborted = true →
    InTime item.origin.deadlineAt item.origin.signal now aborted

/-- Whoever waited for an item that was dropped as late has been told so, if they had not
been answered before. -/
def Discard.Told (d : Discard V) : Prop :=
  ∀ n ∈ d.item.origin.request, (∀ s, (n, s) ∉ d.before) → ∃ s, (n, s) ∈ d.after ∧ TellsLate d.item.signal s

/-- No task of a post or a batch was posted late, and every late request was rejected. -/
structure Punctual (c : Pool V) : Prop where
  posted : ∀ p ∈ c.posted, p.origin.route = .post ∨ p.origin.route = .batch → p.InTime
  discarded : ∀ d ∈ c.discards, d.Told

theorem live_iff {item : QueueItem V} {now : ℚ} {aborted : List ℕ} :
    item.live now aborted = true ↔
      (∀ d ∈ item.deadlineAt, now < d) ∧ ∀ s ∈ item.signal, s ∉ aborted := by
  unfold QueueItem.live
  cases item.deadlineAt with
  | none | some d =>
    cases item.signal with
    | none | some s => simp

/-! ## What is queued, and what a drain discards -/

/-- What may be queued: what heeds the deadline and the signal it was asked for with, and,
if somebody waits for it under no key, has neither. -/
structure QueueItem.Timely (item : QueueItem V) : Prop where
  heeds : item.origin.route = .post ∨ item.origin.route = .batch → item.Heeds
  keyed : item.origin.request ≠ none → item.correlationId = none →
    item.deadlineAt = none ∧ item.signal = none

def Allowed.timely (V : Type) : Allowed V where
  item item := item.Timely
  request _ _ _ := True
  post p := p.origin.route = .post ∨ p.origin.route = .batch → p.InTime

/-- An item that a drain finds late has told its waiter. -/
theorem discard_told (hl : Linked c) {item : QueueItem V} (hitem : item ∈ c.queue)
    (hkeyed : item.Timely) (hdead : item.live c.now c.aborted = false) (rest : List (QueueItem V)) :
    ∀ d ∈ ({ c with queue := rest }.discard item).discards, d ∈ c.discards ∨ d.Told := by
  obtain ⟨c₁, hc₁, h⟩ := discard_eq { c with queue := rest } item
  intro d hd
  rw [h] at hd
  rcases List.mem_append.mp hd with hd | hd
  · exact Or.inl hd
  · obtain rfl := List.mem_singleton.mp hd
    refine Or.inr fun n hn hunsettled => ?_
    rcases hc₁ with ⟨hid, -⟩ | ⟨key, s, hid, hs, rfl⟩
    · -- an item without a key that somebody waits for is live
      obtain ⟨hdeadline, hsignal⟩ := hkeyed.keyed (by
        rw [show item.origin.request = some n from hn]
        exact Option.some_ne_none n) hid
      have hlive : item.live c.now c.aborted = true := by
        rw [live_iff, hdeadline, hsignal]
        simp
      rw [hlive] at hdead
      cases hdead
    · rcases hl item hitem n hn key hid with ⟨s', hs'⟩ | ⟨e, he, hen⟩
      · exact absurd hs' (hunsettled s')
      · refine ⟨s, ?_, hs⟩
        rw [cleanupPendingResponse_eq]
        have hentry : ({ c with queue := rest } : Pool V).entryFor? key = some e := he
        rw [settlementOf, hentry, ← hen]
        exact List.mem_append_right _ (List.mem_singleton_self _)

theorem Discards.told (h : Discards c c') (hl : Linked c) (hkeyed : ∀ item ∈ c.queue, item.Timely) :
    ∀ d ∈ c'.discards, d ∈ c.discards ∨ d.Told := by
  induction h with
  | done c => exact fun d hd => Or.inl hd
  | next c c' item rest hperm hdead h ih =>
    have hmem : ∀ z ∈ rest, z ∈ c.queue := fun z hz =>
      hperm.mem_iff.mpr (List.mem_cons_of_mem item hz)
    have hqueue := queue_discard { c with queue := rest } item
    have hlinked : Linked ({ c with queue := rest }.discard item) := by
      intro z hz n hn key hkey
      rw [hqueue] at hz
      have hone : Discards c ({ c with queue := rest }.discard item) :=
        .next c _ item rest hperm hdead (.done _)
      exact hone.answers (hl z (hmem z hz) n hn key hkey)
    intro d hd
    have htimely : ∀ z ∈ ({ c with queue := rest }.discard item).queue, z.Timely := by
      rw [hqueue]
      exact fun z hz => hkeyed z (hmem z hz)
    rcases ih hlinked htimely d hd with hd | htold
    · exact discard_told hl (hperm.mem_iff.mpr List.mem_cons_self)
        (hkeyed item (hperm.mem_iff.mpr List.mem_cons_self)) hdead rest d hd
    · exact Or.inr htold

/-! ## Moves -/

/-- A pool that has been punctual, and whose items are timely. -/
structure OnTime (c : Pool V) : Prop extends Punctual c where
  enqueued : ∀ item ∈ c.enqueued, item.Timely

theorem Moves.timely (hitem : ∀ item, A.item item → item.Timely)
    (hpost : ∀ p, A.post p → p.origin.route = .post ∨ p.origin.route = .batch → p.InTime)
    (h : Moves W T A c c') (hok : QueueOk c) (hl : Linked c) (hc : OnTime c) : OnTime c' := by
  induction h with
  | refl => exact hc
  | @tail d d' hmoves hstep ih =>
    have hkept := (Moves.queueOk hmoves hok).kept
    have hlinked := Moves.linked hmoves hl
    refine ⟨⟨?_, ?_⟩, ?_⟩
    · intro p hp hroute
      rcases hstep.posted_cases with h | ⟨p', h, hp'⟩
      · exact ih.posted p (h ▸ hp) hroute
      · rw [h] at hp
        rcases List.mem_append.mp hp with hp | hp
        · exact ih.posted p hp hroute
        · obtain rfl := List.mem_singleton.mp hp
          rcases hp' with ⟨-, hallowed⟩ | ⟨item, hmem, horigin, hlive⟩
          · exact hpost p hallowed hroute
          · unfold Post.InTime
            rw [horigin] at hroute ⊢
            exact (ih.enqueued item (hkept item hmem)).heeds hroute _ _ hlive
    · intro dis hdis
      rcases hstep.logs_cases with ⟨-, h⟩ | rfl | ⟨drain, id, rfl⟩
      · exact ih.discarded dis (h ▸ hdis)
      · rcases evict_cases d with ⟨h, -⟩ | ⟨dropped, rest, pending, settled, -, h, -⟩ <;>
          exact ih.discarded dis (by rw [h] at hdis; exact hdis)
      · obtain ⟨d₁, hd, -, h⟩ := logs_serve W T d drain id
        rw [h] at hdis
        rcases hd.told hlinked (fun item hmem => ih.enqueued item (hkept item hmem)) dis hdis
          with hold | htold
        · exact ih.discarded dis hold
        · exact htold
    · intro item hmem
      rcases hstep.queue_cases with ⟨-, h⟩ | ⟨item', hadmitted, -, h⟩
      · exact ih.enqueued item (h ▸ hmem)
      · rw [h] at hmem
        rcases List.mem_append.mp hmem with hmem | hmem
        · exact ih.enqueued item hmem
        · obtain rfl := List.mem_singleton.mp hmem
          exact hitem item hadmitted.allowed

/-! ## Posts and batches -/

/-- A post that is waited for under the empty id has no deadline that has passed, and is not
queued with a deadline or a signal. -/
def TimelyPost (W : World) : PostCondition V := fun c m _ o _ =>
  o.correlationId = some "" →
    (∀ d, Pool.deadlineOf o = .ok (some d) → c.now < d) ∧
      (Queues W c m o → o.deadlineAt = none ∧ o.signal = none)

/-- A batch that awaits nothing is in time, and queues only what is never late. -/
def TimelyBatch (W : World) (T : ObjectText V) : BatchCondition V := fun c items o =>
  InTime o.deadlineAt o.signal c.now c.aborted ∧
    (BatchCollects W T c items o → ∀ now aborted, InTime o.deadlineAt o.signal now aborted)

theorem deadlineOf_ok {o : PostOptions} {deadlineAt : Option ℚ} (h : Pool.deadlineOf o = .ok deadlineAt) :
    o.deadlineAt = deadlineAt.map Number.finite := by
  unfold Pool.deadlineOf at h
  split at h
  · next hnone =>
    cases h
    exact hnone
  · next d hd =>
    cases h
    exact hd
  · cases h

theorem inTime_of_checks {o : PostOptions} {deadlineAt : Option ℚ} {now : ℚ} {aborted : List ℕ}
    (hdeadline : Pool.deadlineOf o = .ok deadlineAt) (hlater : ∀ d ∈ deadlineAt, now < d)
    (hsignal : ∀ s ∈ o.signal, s ∉ aborted) : InTime o.deadlineAt o.signal now aborted := by
  refine ⟨?_, hsignal⟩
  rw [deadlineOf_ok hdeadline]
  intro d hd
  obtain ⟨q, hq, rfl⟩ := Option.map_eq_some_iff.mp hd
  exact not_le.mpr (hlater q hq)

theorem post_timely {m : Message V} {tr : TransferList} {o : PostOptions} {detached : List ℕ}
    (hok : QueueOk c) (hl : Linked c) (hc : OnTime c) (h : TimelyPost W c m tr o detached) :
    OnTime (c.postMessageInner W T m tr o detached).1 := by
  have hmoves : Moves W T (Allowed.timely V) c (c.postMessageInner W T m tr o detached).1 := by
    apply postMessageInner_moves hok.bounded
    · exact fun _ => trivial
    · intro hqueues item hitem
      obtain ⟨hdeadline, hsignal⟩ := hitem.timed rfl
      refine ⟨fun _ now aborted hlive => ?_, fun hrequest hnone => ?_⟩
      · obtain ⟨hlater, hab⟩ := live_iff.mp hlive
        rw [hitem.deadlineAt, hitem.signal]
        exact inTime_of_checks hdeadline hlater (hsignal ▸ hab)
      · obtain ⟨hnever, hfree⟩ := (h ((hitem.keyed hrequest).2 hnone)).2 hqueues
        refine ⟨?_, hsignal.trans hfree⟩
        have hgiven := deadlineOf_ok hdeadline
        rw [hnever] at hgiven
        exact Option.map_eq_none_iff.mp hgiven.symm
    · intro deadlineAt henters hlater p hp _
      unfold Post.InTime
      rw [hp.deadlineAt, hp.signal, hp.now, hp.aborted]
      exact inTime_of_checks henters.deadline hlater henters.signal
  exact hmoves.timely (fun _ h => h) (fun _ h => h) hok hl hc

theorem batch_timely {items : List (Pool.BatchItem V)} {o : PostOptions} (hok : QueueOk c)
    (hl : Linked c) (hc : OnTime c) (h : TimelyBatch W T c items o) :
    OnTime (c.fireAndForget W T items o).1 := by
  have hmoves : Moves W T (Allowed.timely V) c (c.fireAndForget W T items o).1 := by
    apply fireAndForget_moves hok.bounded
    · intro _ hcollects item hitem
      refine ⟨fun _ now aborted _ => ?_, fun hrequest => ?_⟩
      · rw [hitem.deadlineAt, hitem.signal]
        exact h.2 hcollects now aborted
      · cases (hitem.keyed hrequest).1
    · intro p hp _
      unfold Post.InTime
      rw [hp.deadlineAt, hp.signal, hp.now, hp.aborted]
      exact h.1
  exact hmoves.timely (fun _ h => h) (fun _ h => h) hok hl hc

/-! ## Runs -/

def LateAtDoor (c : Pool V) (m : Message V) (o : PostOptions) : Prop :=
  c.terminated = false ∧ o.wantResponse = true ∧ ∃ deadlineAt, Pool.deadlineOf o = .ok deadlineAt ∧
    ((∃ s ∈ o.signal, s ∈ c.aborted) ∨ m.isPlainObject = true ∧ ∃ d ∈ deadlineAt, d ≤ c.now)

/-- A request that is late when it is made is answered with a promise that is rejected. -/
def TurnsAway (W : World) (T : ObjectText V) (c : Pool V) : Prop :=
  ∀ m tr o detached, TimelyPost W c m tr o detached → LateAtDoor c m o →
    ∃ n s, (c.postMessageInner W T m tr o detached).2 = .promise n ∧
      (n, s) ∈ (c.postMessageInner W T m tr o detached).1.settled ∧ TellsLate o.signal s

theorem turnsAway (W : World) (T : ObjectText V) (c : Pool V) : TurnsAway W T c := by
  rintro m tr o detached htimely ⟨hrunning, hwant, deadlineAt, hdeadline, hlate⟩
  cases hs : o.signal.filter (· ∈ c.aborted) with
  | some s =>
    refine ⟨(c.leastFor W o.workerId).1.nextPromise, .aborted s, ?_⟩
    unfold Pool.postMessageInner
    rw [if_neg (by rw [hrunning]; exact Bool.false_ne_true), hdeadline]
    dsimp only
    rw [hs]
    unfold Pool.refuseAborted
    dsimp only
    rw [if_pos hwant]
    exact ⟨rfl, List.mem_append_right _ (List.mem_singleton_self _),
      Or.inr ⟨s, (Option.filter_eq_some_iff.mp hs).1, rfl⟩⟩
  | none =>
    have hsignal : ∀ s ∈ o.signal, s ∉ c.aborted := by
      intro s hsig hab
      have hnot := Option.filter_eq_none_iff.mp hs s hsig
      simp [hab] at hnot
    have hdoor : m.isPlainObject = true ∧ ∃ d ∈ deadlineAt, d ≤ c.now := by
      rcases hlate with ⟨s, hsig, hab⟩ | h
      · exact absurd hab (hsignal s hsig)
      · exact h
    obtain ⟨hplain, d, hd, hle⟩ := hdoor
    rw [postMessageInner_of_enters ⟨hrunning, hdeadline, hsignal, fun _ => hplain⟩ hwant]
    generalize hc' : (c.leastFor W o.workerId).1 = c'
    have hnow : ((c'.correlationIdFor o).1.register (c'.correlationIdFor o).2 o).now = c.now := by
      rw [register_eq, ← hc']
      exact (correlationIdFor_now _ o).trans (leastFor_now c o.workerId)
    have hkey : (c'.correlationIdFor o).2 ≠ "" := by
      intro hempty
      have hlater := (htimely (correlationIdFor_eq_empty.mp hempty)).1 d (by rw [hdeadline, hd])
      exact absurd hle (not_le.mpr hlater)
    have hentry := entry_register (c'.correlationIdFor o).1 (c'.correlationIdFor o).2 o
    unfold Pool.postFor
    rw [if_pos (by rw [show deadlineAt = some d from hd, hnow]; simpa using hle)]
    unfold Pool.refuse
    dsimp only
    rw [if_neg hkey, cleanupPendingResponse_eq, settlementOf]
    obtain ⟨e, he, hn⟩ := hentry
    rw [he]
    refine ⟨(c'.correlationIdFor o).1.nextPromise, .rejected "postMessage deadline elapsed", rfl, ?_,
      Or.inl ⟨_, rfl⟩⟩
    rw [← hn]
    exact List.mem_append_right _ (List.mem_singleton_self _)

/-- In every run whose batches are in time and queue nothing that could be late, and whose
requests under an empty id are neither late nor queued with a deadline or a signal, no task
of a post or a batch is posted late, and every request that is turned away or discarded for
being late is rejected. -/
theorem dispatches_in_time (W : World) (T : ObjectText V) (config : Config)
    (minSize maxSize initial sequence : ℕ) (es : List (Event V))
    (h : Meets (step W T) (EventMeets W T (TimelyPost W) (TimelyBatch W T))
      (Pool.new W config minSize maxSize initial sequence) es) :
    Always (step W T) (fun c => Punctual c ∧ TurnsAway W T c)
      (Pool.new W config minSize maxSize initial sequence) es := by
  have hnew := new_same (V := V) W config minSize maxSize initial sequence
  have hstep : ∀ (c : Pool V) (e : Event V), QueueOk c ∧ Linked c ∧ OnTime c →
      EventMeets W T (TimelyPost W) (TimelyBatch W T) c e →
        QueueOk (step W T c e) ∧ Linked (step W T c e) ∧ OnTime (step W T c e) := by
    intro c e hc he
    refine step_keeps (I := fun c => QueueOk c ∧ Linked c ∧ OnTime c) (fun c hc => hc.1.bounded)
      ?_ ?_ ?_ hc he
    · rintro d d' ⟨hok, hl, ht⟩ hmoves
      refine ⟨hmoves.queueOk hok, hmoves.linked hl, hmoves.timely ?_ ?_ hok hl ht⟩
      · rintro item ⟨hroute, hrequest, -⟩
        refine ⟨fun hposted => ?_, fun hne => absurd hrequest hne⟩
        rw [hroute] at hposted
        rcases hposted with h | h <;> cases h
      · intro p hroute hposted
        rw [show p.origin.route = .broadcast from hroute] at hposted
        rcases hposted with h | h <;> cases h
    · rintro d m tr o detached ⟨hok, hl, ht⟩ hpost
      have hmoves := post_moves (W := W) (T := T) hok.bounded m tr o detached
      exact ⟨hmoves.queueOk hok, hmoves.linked hl, post_timely hok hl ht hpost⟩
    · rintro d items o ⟨hok, hl, ht⟩ hbatch
      have hmoves := batch_moves (W := W) (T := T) hok.bounded items o
      exact ⟨hmoves.queueOk hok, hmoves.linked hl, batch_timely hok hl ht hbatch⟩
  have hstart : QueueOk (Pool.new W config minSize maxSize initial sequence : Pool V) ∧
      Linked (Pool.new W config minSize maxSize initial sequence : Pool V) ∧
      OnTime (Pool.new W config minSize maxSize initial sequence : Pool V) := by
    refine ⟨queueOk_new W config minSize maxSize initial sequence, ?_, ⟨⟨?_, ?_⟩, ?_⟩⟩
    · intro item hitem
      rw [hnew.queue] at hitem
      exact absurd hitem List.not_mem_nil
    · rw [hnew.posted]
      exact fun p hp => absurd hp List.not_mem_nil
    · rw [hnew.discards]
      exact fun d hd => absurd hd List.not_mem_nil
    · rw [hnew.enqueued]
      exact fun item hitem => absurd hitem List.not_mem_nil
  exact (always_of_meets hstep hstart h).mono fun c hc => ⟨hc.2.2.toPunctual, turnsAway W T c⟩

/-- A pool of one worker that takes one task at a time. -/
def single : Pool (Option (List UInt8)) := .new .sound { maxTasksPerWorker := some 1 } 1 1 1 0

/-- A request that is queued with a deadline is rejected by the reply that comes too late for
it. -/
theorem dispatches_in_time_request :
    Always (step .sound idText) (fun c => Punctual c ∧ TurnsAway .sound idText c) single
      [.post (.object none) none {} [],
        .post (.object none) none { awaitResponse := true, deadlineAt := some (.finite 5) } [],
        .clock 7, .message 0 (.data false none none)] :=
  dispatches_in_time .sound idText { maxTasksPerWorker := some 1 } 1 1 1 0 _
    ⟨(fun h => nomatch h), (fun h => nomatch h), trivial, trivial, trivial⟩

/-- A batch reaches a worker after its deadline. -/
theorem batch_dispatched_late :
    ¬ Punctual (run (step .sound idText) single
      [.clock 7, .batch [(.object none, none)] { deadlineAt := some (.finite 5) } none []]) := by
  intro h
  have hlate : ∃ p ∈ (run (step .sound idText) single
      [.clock 7, .batch [(.object none, none)] { deadlineAt := some (.finite 5) } none []]).posted,
      p.origin.route = .batch ∧ p.origin.deadlineAt = some (.finite 5) ∧ p.now = 7 := by
    decide +kernel
  obtain ⟨p, hp, hroute, hdeadline, hnow⟩ := hlate
  refine (h.posted p hp (Or.inr hroute)).1 (.finite 5) hdeadline ?_
  rw [hnow]
  exact (by norm_num : (5 : ℚ) ≤ 7)

end PerformanceHelpers.PowerPool
