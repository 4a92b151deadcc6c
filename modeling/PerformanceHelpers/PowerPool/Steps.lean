import PerformanceHelpers.PowerPool.Moves

/- Every event of a `PowerPool` as moves (`src/helpers/powerPool.js`): a batch item by
   item, a worker's reply, and the workers that come and go.

   `step_keeps` is the rule the properties of runs are proved by: what each move keeps,
   and each post and each batch that meets its condition, a step that meets them keeps. -/
namespace PerformanceHelpers.PowerPool

variable {V : Type} {W : World} {T : ObjectText V} {A : Allowed V} {c c' : Pool V}

/-! ## A batch that awaits nothing -/

structure BatchItemOk (o : PostOptions) (item : QueueItem V) : Prop where
  queued : QueuedBy o .batch item
  signal : item.signal = none
  correlationId : item.correlationId = none

structure AskedBy (o : PostOptions) (origin : Origin V) : Prop where
  target : origin.target = o.workerId
  route : origin.route = .batch
  priority : origin.priority = o.priority
  deadlineAt : origin.deadlineAt = o.deadlineAt
  signal : origin.signal = o.signal
  request : origin.request = none

theorem batchOrigin_askedBy (it : Pool.BatchItem V) (o : PostOptions) :
    AskedBy o (Pool.batchOrigin it o) := by
  constructor <;> rfl

/-- The queue has room for an item of a batch, or makes it. -/
def Admits (c : Pool V) : Prop :=
  ∀ cap ∈ c.maxQueueLength, c.queue.length < cap ∨ c.queuePolicy = .dropOldest ∧ 0 < cap

theorem admits_congr (hqueue : c'.queue = c.queue) (hconfig : c'.toConfig = c.toConfig) :
    Admits c' ↔ Admits c := by
  unfold Admits
  rw [hqueue, show c'.maxQueueLength = c'.toConfig.maxQueueLength from rfl,
    show c'.queuePolicy = c'.toConfig.queuePolicy from rfl, hconfig]

/-- An eviction makes no room that the policy does not make. -/
theorem admits_of_evict (hpolicy : c.queuePolicy = .dropOldest) (h : Admits c.evict) : Admits c := by
  intro cap hcap
  have hcap' : cap ∈ c.evict.maxQueueLength := by
    rw [show c.evict.maxQueueLength = c.evict.toConfig.maxQueueLength from rfl, evict_config]
    exact hcap
  rcases h cap hcap' with hlt | ⟨-, hpos⟩
  · exact Or.inr ⟨hpolicy, by omega⟩
  · exact Or.inr ⟨hpolicy, hpos⟩

/-- Between the turns of a batch no time passes, no signal aborts, and the queue makes no
room. -/
structure SameMoment (c c' : Pool V) : Prop where
  now : c'.now = c.now
  aborted : c'.aborted = c.aborted
  admits : Admits c' → Admits c

namespace SameMoment

theorem refl (c : Pool V) : SameMoment c c := ⟨rfl, rfl, id⟩

theorem trans {c'' : Pool V} (h : SameMoment c c') (h' : SameMoment c' c'') : SameMoment c c'' :=
  ⟨h'.now.trans h.now, h'.aborted.trans h.aborted, h.admits ∘ h'.admits⟩

theorem evict (hpolicy : c.queuePolicy = .dropOldest) : SameMoment c c.evict := by
  refine ⟨?_, (entries_evict c).2.2, admits_of_evict hpolicy⟩
  rcases evict_cases c with ⟨h, -⟩ | ⟨dropped, rest, pending, settled, -, h, -⟩ <;> rw [h]

theorem tryAddWorker (c : Pool V) : SameMoment c (c.tryAddWorker W).1 := by
  have hsame := SameTasks.tryAddWorker W c
  exact ⟨tryAddWorker_now c, hsame.aborted, (admits_congr hsame.queue hsame.config).mp⟩

end SameMoment

/-- The loop of a batch so far: it has moved the pool, a batch with a target keeps to it,
and what it has collected nobody waits for. -/
structure BatchSoFar (W : World) (T : ObjectText V) (A : Allowed V) (c : Pool V) (o : PostOptions)
    (b : Pool.Batch V) : Prop where
  moves : Moves W T A c b.pool
  moment : SameMoment c b.pool
  chosen : ∀ t ∈ o.workerId, ∀ id ∈ b.chosen, id = t
  queued : ∀ q ∈ b.queuedPrepared, BatchItemOk o q.2

variable {o : PostOptions} {b : Pool.Batch V} {id : ℕ}

theorem roomAt_eq {id' : ℕ} (h : c.roomAt id = some id') : id' = id := by
  obtain ⟨w, hw, rfl⟩ := Option.map_eq_some_iff.mp h
  have hfind : c.worker? id = some w := (Option.filter_eq_some_iff.mp hw).1
  simpa using List.find?_some hfind

theorem dispatchToWorker_moves {origin : Origin V} (h : ∀ t ∈ origin.target, id = t)
    (c : Pool V) (prepared : Prepared V)
    (hA : ∀ p : Post V, p.origin = origin → p.now = c.now → p.aborted = c.aborted → A.post p) :
    Moves W T A c (c.dispatchToWorker W T id prepared none none false origin).1 := by
  have hattempt : SameTasks c (c.attempt W).1 := SameTasks.attempt W c
  cases haccepts : W.accepts c.attempts with
  | true =>
    obtain ⟨wire, hdispatch⟩ := dispatchToWorker_of_accepts T haccepts id prepared none none false origin
    rw [hdispatch]
    exact .head (.work _ _ hattempt) (.single (.post _ _ none true ⟨rfl, h⟩ (hA _ rfl rfl rfl)))
  | false =>
    rw [dispatchToWorker_of_throws T haccepts]
    exact Moves.work hattempt

theorem queue_dispatchToWorker (c : Pool V) (id : ℕ) (prepared : Prepared V) (origin : Origin V) :
    (c.dispatchToWorker W T id prepared none none false origin).1.queue = c.queue ∧
      (c.dispatchToWorker W T id prepared none none false origin).1.toConfig = c.toConfig := by
  cases haccepts : W.accepts c.attempts with
  | true =>
    obtain ⟨wire, hdispatch⟩ := dispatchToWorker_of_accepts T haccepts id prepared none none false origin
    rw [hdispatch]
    have hp := queue_recordPost (c.attempt W).1 (c.postTo id wire false origin) none true
    exact ⟨hp.1, hp.2⟩
  | false =>
    rw [dispatchToWorker_of_throws T haccepts]
    exact ⟨rfl, rfl⟩

theorem SameMoment.dispatchToWorker (c : Pool V) (id : ℕ) (prepared : Prepared V) (origin : Origin V) :
    SameMoment c (c.dispatchToWorker W T id prepared none none false origin).1 := by
  have hqueue := queue_dispatchToWorker (W := W) (T := T) c id prepared origin
  have hclock : (c.dispatchToWorker W T id prepared none none false origin).1.now = c.now ∧
      (c.dispatchToWorker W T id prepared none none false origin).1.aborted = c.aborted := by
    cases haccepts : W.accepts c.attempts with
    | true =>
      obtain ⟨wire, hdispatch⟩ := dispatchToWorker_of_accepts T haccepts id prepared none none false
        origin
      obtain ⟨ws, bs, bt, hrecord⟩ := recordPost_eq (c.attempt W).1 (c.postTo id wire false origin) none true
      rw [hdispatch]
      dsimp only [Pool.listenForAbort]
      rw [hrecord]
      exact ⟨rfl, rfl⟩
    | false =>
      rw [dispatchToWorker_of_throws T haccepts]
      exact ⟨rfl, rfl⟩
  exact ⟨hclock.1, hclock.2, (admits_congr hqueue.1 hqueue.2).mp⟩

namespace BatchSoFar

variable {o : PostOptions} {b : Pool.Batch V}

theorem answer (h : BatchSoFar W T A c o b) (result : Bool) : BatchSoFar W T A c o (b.answer result) :=
  { h with }

theorem useSlot (h : BatchSoFar W T A c o b) : BatchSoFar W T A c o b.useSlot :=
  { h with }

theorem moveTo (h : BatchSoFar W T A c o b) (hmoves : Moves W T A b.pool c')
    (hmoment : SameMoment b.pool c') :
    BatchSoFar W T A c o { b with pool := c' } :=
  ⟨h.moves.trans hmoves, h.moment.trans hmoment, h.chosen, h.queued⟩

variable {origin : Origin V}

section
variable (h : BatchSoFar W T A c o b)
include h

theorem collect (prepared : Prepared V)
    (hasked : AskedBy o origin) :
    BatchSoFar W T A c o (b.collect prepared o origin) := by
  refine ⟨h.moves, h.moment, h.chosen, fun q hq => ?_⟩
  rcases List.mem_append.mp hq with hq | hq
  · exact h.queued q hq
  · obtain rfl := List.mem_singleton.mp hq
    have hkept : o.priority.getD 0 = origin.priority.getD 0 := by rw [hasked.priority]
    exact ⟨⟨hasked.target, hasked.route, hkept, hasked.deadlineAt, hasked.signal,
      (fun h => nomatch h), fun h => absurd hasked.request h⟩, rfl, rfl⟩

section
variable (hP : A.Posts o .batch c.now c.aborted)
include hP

/-- What a batch may post, it may post at any of its turns. -/
theorem posts
    (hasked : AskedBy o origin) (p : Post V) (horigin : p.origin = origin) (hnow : p.now = b.pool.now)
    (haborted : p.aborted = b.pool.aborted) : A.post p := by
  refine hP p ⟨?_, ?_, ?_, hnow.trans h.moment.now, haborted.trans h.moment.aborted⟩
  · rw [horigin]
    exact hasked.route
  · rw [horigin]
    exact hasked.deadlineAt
  · rw [horigin]
    exact hasked.signal

theorem dispatch {id : ℕ}
    (hid : ∀ t ∈ o.workerId, id = t) (prepared : Prepared V)
    (hasked : AskedBy o origin) :
    BatchSoFar W T A c o (b.dispatch W T id prepared origin) := by
  have hmoves : Moves W T A b.pool (b.pool.dispatchToWorker W T id prepared none none false origin).1 :=
    dispatchToWorker_moves (hasked.target ▸ hid) b.pool prepared (h.posts hP hasked)
  have hmoment := SameMoment.dispatchToWorker (W := W) (T := T) b.pool id prepared origin
  unfold Pool.Batch.dispatch
  dsimp only
  split
  · apply answer
    apply useSlot
    refine ⟨h.moves.trans hmoves, h.moment.trans hmoment, ?_, h.queued⟩
    intro t ht id' hid'
    rw [roomAt_eq hid']
    exact hid t ht
  · exact (h.moveTo hmoves hmoment).answer false

theorem saturated
    (prepared : Prepared V) (hasked : AskedBy o origin) :
    BatchSoFar W T A c o (b.saturated W T prepared o origin) := by
  unfold Pool.Batch.saturated
  split
  · exact h.answer false
  · next hnone =>
    split
    · split
      · exact h.answer false
      · split
        · next hpolicy =>
          exact (h.moveTo (.single (.evict b.pool hpolicy.1)) (SameMoment.evict hpolicy.1)).collect
            prepared hasked
        · exact h.collect prepared hasked
    · split
      · exact h.answer false
      · next w hw =>
        have hfree : ∀ t ∈ origin.target, w.id = t := by
          intro t ht
          rw [hasked.target] at ht
          simp [show o.workerId = some t from ht] at hnone
        have hturn : SameTasks b.pool
            { b.pool with nextIndex := (b.pool.nextIndex + 1) % b.pool.workers.length } := by
          constructor <;> rfl
        have hturned := h.moveTo (Moves.work hturn)
          ⟨rfl, rfl, (admits_congr hturn.queue hturn.config).mp⟩
        have hmoves := dispatchToWorker_moves (W := W) (T := T) hfree _ prepared (hturned.posts hP hasked)
        have hposted := hturned.moveTo hmoves (SameMoment.dispatchToWorker _ w.id prepared origin)
        dsimp only
        split
        · apply answer
          apply useSlot
          exact { hposted with }
        · exact hposted.answer false

theorem step
    (prepared : Prepared V) (hasked : AskedBy o origin) :
    BatchSoFar W T A c o (b.step W T prepared o origin) := by
  unfold Pool.Batch.step
  split
  · split
    · exact h.collect prepared hasked
    · exact h.answer false
  · dsimp only
    have hkept : ∀ t ∈ o.workerId, ∀ id ∈ b.chosen.bind b.pool.roomAt, id = t := by
      intro t ht id hid
      obtain ⟨id', hid', hroom⟩ := Option.bind_eq_some_iff.mp hid
      rw [roomAt_eq hroom]
      exact h.chosen t ht id' hid'
    have h' : BatchSoFar W T A c o { b with chosen := b.chosen.bind b.pool.roomAt } :=
      ⟨h.moves, h.moment, hkept, h.queued⟩
    split
    · next id hleast =>
      refine h'.dispatch hP ?_ prepared hasked
      intro t ht
      obtain ⟨id', hid', hroom⟩ := Option.bind_eq_some_iff.mp hleast
      rw [roomAt_eq hroom]
      rw [if_pos (by simp [show o.workerId = some t from ht])] at hid'
      cases hchosen : b.chosen.bind b.pool.roomAt with
      | none =>
        rw [hchosen] at hid'
        cases hid'
      | some id'' =>
        rw [hchosen] at hid'
        cases hid'
        exact hkept t ht id' hchosen
    · split
      · next hgrow =>
        have hnone : ∀ id : ℕ, ∀ t ∈ o.workerId, id = t := by
          intro id t ht
          rw [hgrow.1] at ht
          cases ht
        have hadd : Moves W T A b.pool (b.pool.tryAddWorker W).1 := Moves.work (SameTasks.tryAddWorker W _)
        have hgrown := h'.moveTo hadd (SameMoment.tryAddWorker b.pool)
        split
        · exact hgrown.answer false
        · next id hid => exact hgrown.dispatch hP (hnone id) prepared hasked
      · exact h'.saturated hP prepared hasked

theorem loop
    (items : List (Pool.BatchItem V)) :
    BatchSoFar W T A c o (Pool.batchLoop W T o b items) := by
  unfold Pool.batchLoop
  induction items generalizing b with
  | nil => exact h
  | cons it items ih => exact ih (h.step hP _ (batchOrigin_askedBy it o))

end

end

end BatchSoFar

def targetedLoop (W : World) (T : ObjectText V) (c : Pool V) (o : PostOptions) (id : ℕ)
    (items : List (Pool.BatchItem V)) : Pool.Batch V :=
  Pool.batchLoop W T o ⟨c, some id, c.adaptiveLimitNow.map (· - c.activeTasks), [], [], false⟩ items

def BatchQueues (W : World) (T : ObjectText V) (c : Pool V) (items : List (Pool.BatchItem V))
    (o : PostOptions) (id : ℕ) : Prop :=
  (c.worker? id).isSome = true ∧ c.taskQueueEnabled = true ∧ Admits c ∧
    ∃ k < items.length, (targetedLoop W T c o id (items.take k)).adaptiveSlots = some 0

theorem targeted_step (htarget : o.workerId = some id) (b : Pool.Batch V)
    (prepared : Prepared V) (origin : Origin V) :
    (b.step W T prepared o origin).pool.queue = b.pool.queue ∧
      (b.step W T prepared o origin).pool.toConfig = b.pool.toConfig ∧
      ((b.step W T prepared o origin).queuedPrepared = b.queuedPrepared ∨
        b.adaptiveSlots = some 0 ∧ b.pool.taskQueueEnabled = true) := by
  have hdispatch (b : Pool.Batch V) (id' : ℕ) :
      (b.dispatch W T id' prepared origin).pool.queue = b.pool.queue ∧
        (b.dispatch W T id' prepared origin).pool.toConfig = b.pool.toConfig ∧
        (b.dispatch W T id' prepared origin).queuedPrepared = b.queuedPrepared := by
    have h := queue_dispatchToWorker (W := W) (T := T) b.pool id' prepared origin
    unfold Pool.Batch.dispatch
    dsimp only
    split
    · exact ⟨h.1, h.2, rfl⟩
    · exact ⟨h.1, h.2, rfl⟩
  unfold Pool.Batch.step
  split
  · next hslots =>
    split
    · next henabled => exact ⟨rfl, rfl, Or.inr ⟨hslots, henabled⟩⟩
    · exact ⟨rfl, rfl, Or.inl rfl⟩
  · dsimp only
    split
    · next id' hleast =>
      obtain ⟨hq, hc, hp⟩ := hdispatch { b with chosen := b.chosen.bind b.pool.roomAt } id'
      exact ⟨hq, hc, Or.inl hp⟩
    · rw [if_neg (by rw [htarget]; rintro ⟨⟨⟩, -⟩)]
      unfold Pool.Batch.saturated
      rw [if_pos (by rw [htarget]; rfl)]
      exact ⟨rfl, rfl, Or.inl rfl⟩

theorem targeted_loop (htarget : o.workerId = some id) (b : Pool.Batch V)
    (items : List (Pool.BatchItem V)) :
    (Pool.batchLoop W T o b items).pool.queue = b.pool.queue ∧
      (Pool.batchLoop W T o b items).pool.toConfig = b.pool.toConfig ∧
      ((Pool.batchLoop W T o b items).queuedPrepared = b.queuedPrepared ∨
        b.pool.taskQueueEnabled = true ∧
          ∃ k < items.length, (Pool.batchLoop W T o b (items.take k)).adaptiveSlots = some 0) := by
  induction items generalizing b with
  | nil => exact ⟨rfl, rfl, Or.inl rfl⟩
  | cons it items ih =>
    obtain ⟨hq, hc, hstep⟩ := targeted_step (W := W) (T := T) htarget b
      (prepareBuffers T b.pool.messageCodec it.1 it.2 o.zeroCopy) (Pool.batchOrigin it o)
    obtain ⟨hq', hc', hrest⟩ := ih (b.step W T
      (prepareBuffers T b.pool.messageCodec it.1 it.2 o.zeroCopy) o (Pool.batchOrigin it o))
    refine ⟨hq'.trans hq, hc'.trans hc, ?_⟩
    rcases hstep with hsame | ⟨hslots, henabled⟩
    · rcases hrest with hrest | ⟨henabled, k, hk, hslots⟩
      · exact Or.inl (hrest.trans hsame)
      · refine Or.inr ⟨?_, k + 1, Nat.succ_lt_succ hk, hslots⟩
        rw [show ∀ c : Pool V, c.taskQueueEnabled = c.toConfig.taskQueueEnabled from fun _ => rfl, hc]
          at henabled
        exact henabled
    · exact Or.inr ⟨henabled, 0, Nat.succ_pos _, hslots⟩

/-- The next item of a batch is put aside for the queue: the slots of the adaptive limit are
used up, or no worker has room, none may be added, and the policy lets it. -/
def Collects (b : Pool.Batch V) (o : PostOptions) : Prop :=
  b.pool.taskQueueEnabled = true ∧
    (b.adaptiveSlots = some 0 ∨
      o.workerId = none ∧ { b with chosen := b.chosen.bind b.pool.roomAt }.least o = none ∧
        b.pool.maxSize ≤ b.pool.workers.length ∧
        ¬ (b.pool.queuePolicy = .reject ∨ b.pool.queuePolicy = .dropNewest ∧ b.pool.queue ≠ []))

theorem queuedPrepared_step (W : World) (T : ObjectText V) (b : Pool.Batch V) (o : PostOptions)
    (prepared : Prepared V) (origin : Origin V) :
    (b.step W T prepared o origin).queuedPrepared = b.queuedPrepared ∨ Collects b o := by
  have hdispatch (b : Pool.Batch V) (id : ℕ) :
      (b.dispatch W T id prepared origin).queuedPrepared = b.queuedPrepared := by
    unfold Pool.Batch.dispatch
    dsimp only
    split <;> rfl
  unfold Pool.Batch.step
  split
  · next hslots =>
    split
    · next henabled => exact Or.inr ⟨henabled, Or.inl hslots⟩
    · exact Or.inl rfl
  · dsimp only
    split
    · exact Or.inl (hdispatch _ _)
    · next hleast =>
      split
      · split
        · exact Or.inl rfl
        · exact Or.inl (hdispatch _ _)
      · next hfull =>
        unfold Pool.Batch.saturated
        split
        · exact Or.inl rfl
        · next htarget =>
          have htarget : o.workerId = none := by simpa using htarget
          split
          · next henabled =>
            split
            · exact Or.inl rfl
            · next hpolicy =>
              exact Or.inr ⟨henabled, Or.inr ⟨htarget, hleast,
                not_lt.mp fun hlt => hfull ⟨htarget, hlt⟩, hpolicy⟩⟩
          · split
            · exact Or.inl rfl
            · dsimp only
              split <;> exact Or.inl rfl

/-- What a loop puts aside, one of its items was put aside for. -/
theorem queuedPrepared_loop (W : World) (T : ObjectText V) (o : PostOptions) (b : Pool.Batch V)
    (items : List (Pool.BatchItem V)) :
    (Pool.batchLoop W T o b items).queuedPrepared = b.queuedPrepared ∨
      ∃ k < items.length, Collects (Pool.batchLoop W T o b (items.take k)) o := by
  induction items generalizing b with
  | nil => exact Or.inl rfl
  | cons it items ih =>
    rcases queuedPrepared_step W T b o (prepareBuffers T b.pool.messageCodec it.1 it.2 o.zeroCopy)
      (Pool.batchOrigin it o) with hsame | hcollects
    · rcases ih (b.step W T (prepareBuffers T b.pool.messageCodec it.1 it.2 o.zeroCopy) o
        (Pool.batchOrigin it o)) with hrest | ⟨k, hk, hcollects⟩
      · exact Or.inl (hrest.trans hsame)
      · exact Or.inr ⟨k + 1, Nat.succ_lt_succ hk, hcollects⟩
    · exact Or.inr ⟨0, Nat.succ_pos _, hcollects⟩

def batchStart (c : Pool V) (o : PostOptions) : Pool.Batch V :=
  ⟨c, o.workerId.orElse fun _ => (Pool.findLeastLoadedWorker c.workers).map (·.id),
    c.adaptiveLimitNow.map (· - c.activeTasks), [], [], false⟩

def BatchCollects (W : World) (T : ObjectText V) (c : Pool V) (items : List (Pool.BatchItem V))
    (o : PostOptions) : Prop :=
  (∀ id ∈ o.workerId, (c.worker? id).isSome = true) ∧ Admits c ∧
    ∃ k < items.length, Collects (Pool.batchLoop W T o (batchStart c o) (items.take k)) o

/-! ## What a batch queues -/

/-- So many items, as far as there is room for them. -/
theorem reserveQueueSlots_room (hb : Bounded c) (n : ℕ) :
    ∀ cap ∈ (c.reserveQueueSlots n).1.maxQueueLength,
      (c.reserveQueueSlots n).1.queue.length + (c.reserveQueueSlots n).2 ≤ cap := by
  have hevicted (k : ℕ) : ∀ c : Pool V, (Pool.evictMany k c).queue.length ≤ c.queue.length ∧
      (Pool.evictMany k c).toConfig = c.toConfig := by
    induction k with
    | zero => exact fun c => ⟨le_rfl, rfl⟩
    | succ k ih =>
      intro c
      obtain ⟨hlen, hconfig⟩ := ih c.evict
      exact ⟨hlen.trans (length_evict_le c), hconfig.trans (evict_config c)⟩
  unfold Pool.reserveQueueSlots
  cases hcap : c.maxQueueLength with
  | none =>
    intro cap h
    rw [hcap] at h
    cases h
  | some m =>
    dsimp only
    split
    · next hfits =>
      intro cap h
      rw [hcap] at h
      cases h
      exact hfits
    · split
      · obtain ⟨hlen, hconfig⟩ := hevicted (c.queue.length + n - m) c
        intro cap h
        rw [show ∀ c : Pool V, c.maxQueueLength = c.toConfig.maxQueueLength from fun _ => rfl,
          hconfig] at h
        obtain rfl : m = cap := Option.some.inj (hcap.symm.trans h)
        have hle := hb m hcap
        dsimp only
        omega
      · intro cap h
        rw [hcap] at h
        cases h
        have hle := hb m hcap
        dsimp only
        omega

theorem reserveQueueSlots_moves (n : ℕ) : Moves W T A c (c.reserveQueueSlots n).1 := by
  unfold Pool.reserveQueueSlots
  split
  · exact .refl
  · split
    · exact .refl
    · dsimp only
      split
      · next hpolicy => exact evictMany_moves _ hpolicy
      · exact .refl

theorem admits_of_reserved {n : ℕ} (h : 0 < (c.reserveQueueSlots n).2) (hn : 0 < n) : Admits c := by
  intro cap hcap
  unfold Pool.reserveQueueSlots at h
  rw [hcap] at h
  dsimp only at h
  split at h
  · exact Or.inl (by omega)
  · split at h
    · next hpolicy => exact Or.inr ⟨hpolicy, by omega⟩
    · exact Or.inl (by dsimp only at h; omega)

/-- Items that nobody waits for are queued one after the other. -/
theorem queueAll_moves (items : List (QueueItem V))
    (hroom : ∀ cap ∈ c.maxQueueLength, c.queue.length + items.length ≤ cap)
    (hitems : ∀ item ∈ items, A.item item ∧ item.signal = none ∧ item.correlationId = none) :
    Moves W T A c { c with queue := c.queue ++ items, enqueued := c.enqueued ++ items } := by
  induction items generalizing c with
  | nil =>
    rw [List.append_nil, List.append_nil]
  | cons item items ih =>
    obtain ⟨hA, hsignal, hid⟩ := hitems item List.mem_cons_self
    have hone : c.enqueue item =
        { c with queue := c.queue ++ [item], enqueued := c.enqueued ++ [item] } := by
      unfold Pool.enqueue
      rw [hsignal]
    have hfirst : Move W T A c (c.enqueue item) := by
      refine .enqueue c item ⟨hA, ?_, ?_, ?_⟩
      · intro cap hcap
        have hle := hroom cap hcap
        rw [List.length_cons] at hle
        omega
      · intro s hs
        rw [hsignal] at hs
        cases hs
      · intro n _ key hkey
        rw [hid] at hkey
        cases hkey
    have hrest := ih (c := c.enqueue item) ?_ fun item' h => hitems item' (List.mem_cons_of_mem _ h)
    · have hmoves := Relation.ReflTransGen.head hfirst hrest
      rw [hone] at hmoves
      simpa only [List.append_assoc, List.singleton_append] using hmoves
    · intro cap hcap
      have hle := hroom cap hcap
      rw [hone, List.length_append]
      rw [List.length_cons] at hle
      dsimp only [List.length_cons, List.length_nil]
      omega

/-- The end of a loop, where what it admits may be queued. -/
theorem BatchSoFar.enqueue (h : BatchSoFar W T A c o b)
    (hb : Bounded c) (hA : b.queuedPrepared ≠ [] → Admits b.pool → A.Queues o .batch) :
    Moves W T A c b.enqueue.pool := by
  unfold Pool.Batch.enqueue
  split
  · exact h.moves
  · next hqueued =>
    dsimp only
    have hreserved := h.moves.trans (reserveQueueSlots_moves b.queuedPrepared.length)
    split
    · exact hreserved
    · next hadmitted =>
      refine hreserved.trans (queueAll_moves _ ?_ ?_)
      · intro cap hcap
        have hle := reserveQueueSlots_room (h.moves.bounded hb) b.queuedPrepared.length cap hcap
        rw [List.length_map, List.length_take]
        omega
      · have hslots : 0 < (b.pool.reserveQueueSlots b.queuedPrepared.length).2 := by
          by_contra hzero
          rw [Nat.eq_zero_of_not_pos hzero] at hadmitted
          exact hadmitted rfl
        have hallowed := hA hqueued (admits_of_reserved hslots (List.length_pos_of_ne_nil hqueued))
        intro item hitem
        obtain ⟨q, hq, rfl⟩ := List.mem_map.mp hitem
        have hok := h.queued q (List.mem_of_mem_take hq)
        exact ⟨hallowed _ hok.queued, hok.signal, hok.correlationId⟩

theorem Moves.finish (h : Moves W T A c b.pool) : Moves W T A c b.finish.1 := by
  unfold Pool.Batch.finish
  dsimp only
  split
  · exact h.trans (Moves.work (SameTasks.updateIdleState _))
  · exact h

theorem singleLoop_moves (htarget : o.workerId = none) (id : ℕ)
    (h : BatchSoFar W T A c o b) (hP : A.Posts o .batch c.now c.aborted)
    (items : List (Pool.BatchItem V)) :
    Moves W T A c (Pool.singleLoop W T id o b items).pool := by
  unfold Pool.singleLoop
  induction items generalizing b with
  | nil => exact h.moves
  | cons it items ih =>
    rw [List.foldl_cons]
    have hasked := batchOrigin_askedBy it o
    have hfree : ∀ t ∈ (Pool.batchOrigin it o).target, id = t := by
      intro t ht
      rw [show (Pool.batchOrigin it o).target = none from htarget] at ht
      cases ht
    have hmoved := h.moveTo (dispatchToWorker_moves (W := W) (T := T) hfree b.pool
      (prepareBuffers T b.pool.messageCodec it.1 it.2 o.zeroCopy) (h.posts hP hasked))
      (SameMoment.dispatchToWorker b.pool id _ _)
    apply ih
    apply BatchSoFar.answer
    exact { hmoved with }

theorem fireAndForget_moves {items : List (Pool.BatchItem V)} (hb : Bounded c)
    (hA : (∀ id ∈ o.workerId, BatchQueues W T c items o id) → BatchCollects W T c items o →
      A.Queues o .batch)
    (hP : A.Posts o .batch c.now c.aborted) :
    Moves W T A c (c.fireAndForget W T items o).1 := by
  have hstart (chosen : Option ℕ) (hchosen : ∀ t ∈ o.workerId, ∀ id ∈ chosen, id = t) :
      BatchSoFar W T A c o ⟨c, chosen, c.adaptiveLimitNow.map (· - c.activeTasks), [], [], false⟩ :=
    ⟨.refl, SameMoment.refl c, hchosen, fun q hq => absurd hq List.not_mem_nil⟩
  unfold Pool.fireAndForget
  dsimp only
  split
  · next id htarget =>
    split
    · exact .refl
    · next w hw =>
      have hwid : w.id = id := by simpa using List.find?_some hw
      rw [hwid]
      have hloop : BatchSoFar W T A c o (targetedLoop W T c o id items) := by
        refine (hstart (some id) ?_).loop hP items
        rintro t ht id' ⟨⟩
        rw [htarget] at ht
        exact Option.some.inj ht
      refine (hloop.enqueue hb fun hqueued hadmits => hA ?_ ?_).finish
      · rintro id' hid'
        obtain rfl : id = id' := Option.some.inj (htarget.symm.trans hid')
        obtain ⟨hqueue, hconfig, hrest⟩ := targeted_loop (W := W) (T := T) htarget
          ⟨c, some id, c.adaptiveLimitNow.map (· - c.activeTasks), [], [], false⟩ items
        rcases hrest with hnone | ⟨henabled, hk⟩
        · exact absurd hnone hqueued
        · refine ⟨by rw [hw]; rfl, henabled, ?_, hk⟩
          exact (admits_congr hqueue hconfig).mp hadmits
      · have hbegin : batchStart c o =
            ⟨c, some id, c.adaptiveLimitNow.map (· - c.activeTasks), [], [], false⟩ := by
          unfold batchStart
          rw [htarget]
          rfl
        refine ⟨?_, hloop.moment.admits hadmits, ?_⟩
        · intro id' hid'
          obtain rfl : id = id' := Option.some.inj (htarget.symm.trans hid')
          rw [hw]
          rfl
        · rw [hbegin]
          exact (queuedPrepared_loop W T o _ items).resolve_left hqueued
  · next htarget =>
    have hfree (chosen : Option ℕ) : ∀ t ∈ o.workerId, ∀ id ∈ chosen, id = t := by
      intro t ht
      rw [htarget] at ht
      cases ht
    split
    · next w hw => exact (singleLoop_moves htarget w.id (hstart none (hfree none)) hP items).finish
    · have hbegin : batchStart c o = ⟨c, (Pool.findLeastLoadedWorker c.workers).map (·.id),
          c.adaptiveLimitNow.map (· - c.activeTasks), [], [], false⟩ := by
        unfold batchStart
        rw [htarget]
        rfl
      have hloop := (hstart ((Pool.findLeastLoadedWorker c.workers).map (·.id)) (hfree _)).loop hP items
      refine (hloop.enqueue hb fun hqueued hadmits => hA ?_ ⟨?_, hloop.moment.admits hadmits, ?_⟩).finish
      · intro id hid
        rw [htarget] at hid
        cases hid
      · intro id hid
        rw [htarget] at hid
        cases hid
      · rw [hbegin]
        exact (queuedPrepared_loop W T o _ items).resolve_left hqueued

/-! ## Draining, and workers that come and go -/

theorem inlineDrain_moves (id : ℕ) : Moves W T A c (c.inlineDrain W T id) := by
  unfold Pool.inlineDrain
  split
  · exact .refl
  · exact .single (.serve c .inline id)

theorem fillWorker_moves (id n : ℕ) (slots : Option ℕ) {d : Pool.Dispatching V}
    (h : Moves W T A c d.pool) : Moves W T A c (Pool.fillWorker W T id n slots d).pool := by
  induction n generalizing slots d with
  | zero => exact h
  | succ n ih =>
    rw [Pool.fillWorker]
    split
    · exact h
    · dsimp only
      have hserved := h.tail (.serve d.pool .dispatch id)
      split
      · exact ih _ hserved
      · exact hserved

theorem workerTurns_moves (ws : List Worker) {d : Pool.Dispatching V} (h : Moves W T A c d.pool) :
    Moves W T A c (ws.foldl (Pool.workerTurn W T) d).pool := by
  induction ws generalizing d with
  | nil => exact h
  | cons w ws ih => exact ih (fillWorker_moves w.id _ _ h)

theorem dispatchQueuedTasks_moves : Moves W T A c (c.dispatchQueuedTasks W T) := by
  unfold Pool.dispatchQueuedTasks
  split
  · exact .refl
  · dsimp only
    have hready : Moves W T A c c.refreshReady := Moves.work (SameTasks.refreshReady c)
    split
    · exact (workerTurns_moves _ hready).trans (Moves.work (SameTasks.updateIdleState _))
    · exact workerTurns_moves _ hready

theorem settleReply_moves (correlationId : Option String) :
    Moves W T A c (c.settleReply correlationId) := by
  unfold Pool.settleReply
  split
  · exact .refl
  · next key => exact .single (.settle c key .resolved fun g h => by cases h)

theorem onmessage_moves (id : ℕ) (correlationId : Option String) (duration : Option ℚ) :
    Moves W T A c (c.onmessage W T id correlationId duration) := by
  unfold Pool.onmessage
  have hcounted := Moves.work (W := W) (T := T) (A := A) (SameTasks.countReply c id)
  have hsettled := hcounted.trans (settleReply_moves correlationId)
  have hrecorded := hsettled.trans (Moves.work (SameTasks.recordLatency _ id duration))
  have hdrained := hrecorded.trans (inlineDrain_moves id)
  exact hdrained.trans (Moves.work (SameTasks.updateIdleState _))

theorem handleMessage_moves (id : ℕ) (message : Inbound) :
    Moves W T A c (c.handleMessage W T id message) := by
  unfold Pool.handleMessage
  split
  · exact .refl
  · split
    · exact Moves.work (SameTasks.updateWorker c id _)
    · split
      · exact (Moves.work (SameTasks.updateWorker c id _)).trans dispatchQueuedTasks_moves
      · exact onmessage_moves id _ _

theorem rejectEach_moves (error : String) (keys : List String) (c : Pool V) :
    Moves W T A c (keys.foldl (fun c key => c.cleanupPendingResponse key (.rejected error)) c) := by
  induction keys generalizing c with
  | nil => exact .refl
  | cons key keys ih => exact .head (.settle c key (.rejected error) fun g h => by cases h) (ih _)

theorem pending_rejectEach (error : String) (keys : List String) (c : Pool V) :
    (keys.foldl (fun c key => c.cleanupPendingResponse key (.rejected error)) c).pending =
      c.pending.filter fun e => !keys.contains e.key := by
  induction keys generalizing c with
  | nil => simp
  | cons key keys ih =>
    rw [List.foldl_cons, ih, cleanupPendingResponse_eq, List.filter_filter]
    refine List.filter_congr fun e _ => ?_
    simp only [List.contains_cons]
    cases he : e.key == key <;> simp [bne, he]

/-- Nobody waits any more after everybody has been rejected. -/
theorem rejectAllPending_moves (error : String) (c : Pool V) :
    Moves W T A c (c.rejectAllPending error) := by
  have hnone := pending_rejectEach error (c.pending.map (·.key)) c
  have hempty : (c.pending.filter fun e => !(c.pending.map (·.key)).contains e.key) = [] := by
    refine List.filter_eq_nil_iff.mpr fun e he => ?_
    simpa using ⟨e, he, rfl⟩
  rw [hempty] at hnone
  have hmoves := rejectEach_moves (W := W) (T := T) (A := A) error (c.pending.map (·.key)) c
  unfold Pool.rejectAllPending
  dsimp only
  rw [← hnone]
  exact hmoves

theorem terminateWorker_moves (id : ℕ) (reason : String) : Moves W T A c (c.terminateWorker id reason) := by
  unfold Pool.terminateWorker
  split
  · exact .refl
  · dsimp only
    unfold Pool.rejectPendingForWorker
    split
    · exact (Moves.work ((SameTasks.decrementActiveTasks c _).trans
        (SameTasks.updateWorker _ id _))).trans (rejectEach_moves _ _ _)
    · exact (Moves.work (SameTasks.updateWorker c id _)).trans (rejectEach_moves _ _ _)

theorem terminateWorkers_moves (ids : List ℕ) (reason : String) (c : Pool V) :
    Moves W T A c (c.terminateWorkers ids reason) := by
  unfold Pool.terminateWorkers
  induction ids generalizing c with
  | nil => exact .refl
  | cons id ids ih => exact (terminateWorker_moves id reason).trans (ih _)

theorem retire_moves (reason : String) (id : ℕ) : Moves W T A c (c.retire reason id) :=
  (terminateWorker_moves id reason).trans (Moves.work (SameTasks.dropWorker _ id))

theorem retireSwapping_moves (reason : String) (ids : List ℕ) (c : Pool V) :
    Moves W T A c (c.retireSwapping reason ids) := by
  unfold Pool.retireSwapping
  induction ids generalizing c with
  | nil => exact .refl
  | cons id ids ih =>
    exact ((terminateWorker_moves id reason).trans (Moves.work (SameTasks.swapOut _ id))).trans (ih _)

theorem handleWorkerExit_moves (id : ℕ) : Moves W T A c (c.handleWorkerExit W id) := by
  unfold Pool.handleWorkerExit
  split
  · exact .refl
  · next w hw =>
    dsimp only
    generalize (if w.everCompletedTask then 0 else
      (c.retire "worker-exit" id).consecutiveBootstrapFailures + 1) = failures
    have hcounted : SameTasks (c.retire "worker-exit" id)
        { c.retire "worker-exit" id with consecutiveBootstrapFailures := failures } := by
      constructor <;> rfl
    have hretired := (retire_moves (W := W) (T := T) (A := A) (c := c) "worker-exit" id).trans
      (Moves.work hcounted)
    split
    · exact hretired.trans (Moves.work (SameTasks.updateIdleState _))
    · split
      · exact hretired.trans (Moves.work (SameTasks.updateIdleState _))
      · exact hretired.trans (Moves.work ((SameTasks.addWorkers W _ _).trans (SameTasks.updateIdleState _)))

theorem resize_moves (minSize maxSize : ℕ) : Moves W T A c (c.resize W minSize maxSize) := by
  have hretired (ids : List ℕ) : ∀ c : Pool V,
      Moves W T A c (ids.foldl (fun c id => c.retire "resize" id) c) := by
    induction ids with
    | nil => exact fun c => .refl
    | cons id ids ih => exact fun c => (retire_moves "resize" id).trans (ih _)
  unfold Pool.resize
  dsimp only
  have hsized : SameTasks c { c with minSize, maxSize := max minSize maxSize } := by constructor <;> rfl
  generalize ({ c with minSize, maxSize := max minSize maxSize } : Pool V) = c' at hsized ⊢
  have hfilled : Moves W T A c (c'.refill W) := Moves.work (hsized.trans (SameTasks.addWorkers W c' _))
  exact (hfilled.trans (hretired _ _)).trans (Moves.work (SameTasks.updateIdleState _))

theorem autoScaleTick_moves (limit : ℚ) (add remove : ℕ) :
    Moves W T A c (c.autoScaleTick W limit add remove) := by
  unfold Pool.autoScaleTick
  split
  · exact .refl
  · dsimp only
    have hlimit : SameTasks c { c with adaptiveLimit := limit } := by constructor <;> rfl
    split
    · exact Moves.work (hlimit.trans (SameTasks.addWorkers W _ _))
    · split
      · exact (Moves.work hlimit).trans (retireSwapping_moves _ _ _)
      · exact Moves.work hlimit

theorem resetPool_moves (recreate : Bool) : Moves W T A c (c.resetPool W recreate) := by
  unfold Pool.resetPool
  dsimp only
  have hcleared : Move W T A c { c with queue := [] } := .clear c
  generalize ({ c with queue := [] } : Pool V) = c' at hcleared ⊢
  have hended : Moves W T A c ((c'.rejectAllPending "stopThePress: cancelled pending response").terminateWorkers
      ((c'.rejectAllPending "stopThePress: cancelled pending response").workers.map (·.id)).reverse
      "stopThePress:reset") :=
    .head hcleared ((rejectAllPending_moves _ _).trans (terminateWorkers_moves _ _ _))
  generalize Pool.terminateWorkers _ _ _ = d at hended ⊢
  have hempty : SameTasks d { d with workers := [], activeTasks := 0 } := by constructor <;> rfl
  split
  · exact hended.trans
      (Moves.work (hempty.trans ((SameTasks.addWorkers W _ _).trans (SameTasks.updateIdleState _))))
  · exact hended.trans (Moves.work (hempty.trans (SameTasks.updateIdleState _)))

theorem shutdown_moves : Moves W T A c c.shutdown := by
  unfold Pool.shutdown
  split
  · exact .refl
  · dsimp only
    have hterminated : SameTasks c { c with terminated := true } := by constructor <;> rfl
    generalize ({ c with terminated := true } : Pool V) = c' at hterminated ⊢
    have hended : Moves W T A c ((c'.rejectAllPending "pool:shutdown").terminateWorkers
        ((c'.rejectAllPending "pool:shutdown").workers.map (·.id)) "shutdown") :=
      .head (.work _ _ hterminated) ((rejectAllPending_moves _ _).trans (terminateWorkers_moves _ _ _))
    generalize Pool.terminateWorkers _ _ _ = d at hended ⊢
    have hempty : SameTasks { d with queue := [] } { d with workers := [], queue := [], activeTasks := 0 } := by
      constructor <;> rfl
    exact hended.trans (.head (.clear d) (Moves.work (hempty.trans (SameTasks.updateIdleState _))))

theorem broadcast_moves (hA : ∀ p : Post V, p.origin.route = .broadcast → A.post p) (m : Message V)
    (tr : TransferList) : Moves W T A c (c.broadcast W T m tr) := by
  have heach (ids : List ℕ) : ∀ c : Pool V, Moves W T A c (ids.foldl (fun c id =>
      (c.dispatchToWorker W T id (prepareBroadcast T m tr) none none false
        { message := m, transfer := tr, route := .broadcast }).1) c) := by
    induction ids with
    | nil => exact fun c => .refl
    | cons id ids ih =>
      intro c
      refine Relation.ReflTransGen.trans (dispatchToWorker_moves ?_ c _ ?_) (ih _)
      · rintro t ⟨⟩
      · intro p horigin _ _
        exact hA p (by rw [horigin])
  unfold Pool.broadcast
  exact (heach _ _).trans (Moves.work (SameTasks.updateIdleState _))

theorem responseTimeout_moves (n : ℕ) : Moves W T A c (c.responseTimeout n) := by
  unfold Pool.responseTimeout
  split
  · exact .refl
  · exact Moves.settle c _ _

theorem resumeQueue_moves : Moves W T A c (c.resumeQueue W T) := by
  unfold Pool.resumeQueue
  split
  · have hresumed : SameTasks c { c with queuePaused := false } := by constructor <;> rfl
    exact (Moves.work hresumed).trans dispatchQueuedTasks_moves
  · exact .refl

/-! ## A step -/

abbrev PostCondition (V : Type) := Pool V → Message V → TransferList → PostOptions → List ℕ → Prop

abbrev BatchCondition (V : Type) := Pool V → List (Pool.BatchItem V) → PostOptions → Prop

def EachMeets (W : World) (T : ObjectText V) (P : PostCondition V) (detached : List ℕ) :
    Pool V → List (Pool.BatchItem V × PostOptions) → Prop
  | _, [] => True
  | c, (it, o) :: rest => P c it.1 it.2 o detached ∧
      ((c.postMessageInner W T it.1 it.2 o detached).2.error? = none →
        EachMeets W T P detached (c.postMessageInner W T it.1 it.2 o detached).1 rest)

def batchPosts (items : List (Pool.BatchItem V)) (o : PostOptions) (ids : Option (List String)) :
    List (Pool.BatchItem V × PostOptions) :=
  match ids with
  | none => items.map fun it => (it, o)
  | some ids => (items.zip ids).map fun p => (p.1, { o with correlationId := some p.2 })

def BatchOpens (c : Pool V) (items : List (Pool.BatchItem V)) (o : PostOptions) :
    Option (List String) → Prop
  | none => ¬ (o.correlationId.isSome = true ∧ 1 < items.length)
  | some ids => c.IdsOk ids

/-- Every post and every batch of an event meets its condition. -/
def EventMeets (W : World) (T : ObjectText V) (P : PostCondition V) (B : BatchCondition V) (c : Pool V) :
    Event V → Prop
  | .post m tr o detached => P c m tr o detached
  | .batch items o ids detached =>
    c.terminated = false →
      if o.wantResponse then
        BatchOpens c items o ids → EachMeets W T P detached c (batchPosts items o ids)
      else B c items o
  | .stopThePress true m tr o detached => P (c.resetPool W true) m tr o detached
  | _ => True

def Allowed.any (V : Type) : Allowed V where
  item _ := True
  request _ _ _ := True

theorem post_moves (hb : Bounded c) (m : Message V) (tr : TransferList) (o : PostOptions)
    (detached : List ℕ) :
    Moves W T (Allowed.any V) c (c.postMessageInner W T m tr o detached).1 :=
  postMessageInner_moves hb (fun _ => trivial) (fun _ _ _ => trivial) fun _ _ _ _ _ => trivial

theorem batch_moves (hb : Bounded c) (items : List (Pool.BatchItem V)) (o : PostOptions) :
    Moves W T (Allowed.any V) c (c.fireAndForget W T items o).1 :=
  fireAndForget_moves hb (fun _ _ _ _ => trivial) fun _ _ => trivial

/-- What a step does besides posts and batches: nothing is asked for, what is queued
`stopThePress` has queued, and what is posted past the queue is broadcast. -/
def Allowed.rest (V : Type) : Allowed V where
  item item := item.origin.route = .stopThePress ∧ item.origin.request = none ∧ item.Kept
  request _ _ _ := False
  post p := p.origin.route = .broadcast

/-- What `postMessageBatch` comes to: it is thrown back, or it posts one item after the
other, or it awaits nothing. -/
theorem postMessageBatch_cases (W : World) (T : ObjectText V) (c : Pool V)
    (items : List (Pool.BatchItem V)) (o : PostOptions) (ids : Option (List String)) (detached : List ℕ) :
    (c.postMessageBatch W T items o ids detached).1 = c ∨
      c.terminated = false ∧ o.wantResponse = true ∧ BatchOpens c items o ids ∧
        (c.postMessageBatch W T items o ids detached).1 =
          (c.postEach W T detached (batchPosts items o ids)).1 ∨
      c.terminated = false ∧ o.wantResponse = false ∧
        (c.postMessageBatch W T items o ids detached).1 = (c.fireAndForget W T items o).1 := by
  unfold Pool.postMessageBatch
  split
  · exact Or.inl rfl
  · next hrunning =>
    have hrunning : c.terminated = false := by simpa using hrunning
    split
    · next hwant =>
      cases ids with
      | none =>
        dsimp only
        split
        · exact Or.inl rfl
        · next hopens => exact Or.inr (Or.inl ⟨hrunning, hwant, hopens, rfl⟩)
      | some ids =>
        dsimp only
        split
        · next hopens => exact Or.inr (Or.inl ⟨hrunning, hwant, hopens, rfl⟩)
        · exact Or.inl rfl
    · next hwant => exact Or.inr (Or.inr ⟨hrunning, by simpa using hwant, rfl⟩)

section
variable {P : PostCondition V} {B : BatchCondition V} {I : Pool V → Prop}

theorem postEach_keeps (hpost : ∀ c m tr o detached, I c → P c m tr o detached →
      I (c.postMessageInner W T m tr o detached).1)
    {detached : List ℕ} {posts : List (Pool.BatchItem V × PostOptions)} (hc : I c)
    (h : EachMeets W T P detached c posts) : I (c.postEach W T detached posts).1 := by
  induction posts generalizing c with
  | nil => exact hc
  | cons p posts ih =>
    have hfirst := hpost c p.1.1 p.1.2 p.2 detached hc h.1
    rw [Pool.postEach]
    dsimp only
    split
    · exact hfirst
    · next herror => exact ih hfirst (h.2 herror)

/-- The rule for a step: what the moves keep, and every post and every batch that meets its
condition, a step keeps all of whose posts and batches do. -/
theorem step_keeps (hbounded : ∀ c, I c → Bounded c)
    (hmoves : ∀ c c', I c → Moves W T (Allowed.rest V) c c' → I c')
    (hpost : ∀ c m tr o detached, I c → P c m tr o detached →
      I (c.postMessageInner W T m tr o detached).1)
    (hbatch : ∀ c items o, I c → B c items o → I (c.fireAndForget W T items o).1)
    (hc : I c) {e : Event V} (he : EventMeets W T P B c e) : I (step W T c e) := by
  cases e with
  | clock reading => exact hmoves _ _ hc (Moves.work (by constructor <;> rfl))
  | post m tr o detached => exact hpost c m tr o detached hc he
  | batch items o ids detached =>
    rcases postMessageBatch_cases W T c items o ids detached with h | ⟨hrunning, hwant, hopens, h⟩ |
      ⟨hrunning, hwant, h⟩
    · rw [step, h]
      exact hc
    · have heach := he hrunning
      rw [if_pos hwant] at heach
      rw [step, h]
      exact postEach_keeps hpost hc (heach hopens)
    · have hall := he hrunning
      rw [if_neg (by rw [hwant]; exact Bool.false_ne_true)] at hall
      rw [step, h]
      exact hbatch c items o hc hall
  | broadcast m tr => exact hmoves _ _ hc (broadcast_moves (fun _ h => h) m tr)
  | stopThePress recreate m tr o detached =>
    have hreset := hmoves _ _ hc (resetPool_moves (W := W) (T := T) recreate)
    cases recreate with
    | true => exact hpost _ m tr o detached hreset he
    | false =>
      apply hmoves _ _ hreset
      apply enqueueOrReject_moves (hbounded _ hreset)
      · rintro w ⟨⟩
      · exact fun h => absurd rfl h
      · rintro n ⟨⟩
      · exact fun _ => ⟨rfl, rfl, rfl⟩
  | message id m => exact hmoves _ _ hc (handleMessage_moves id m)
  | exit id => exact hmoves _ _ hc (handleWorkerExit_moves id)
  | timeout n => exact hmoves _ _ hc (responseTimeout_moves n)
  | abort s => exact hmoves _ _ hc (.single (.abort c s))
  | pause => exact hmoves _ _ hc (Moves.work (by constructor <;> rfl))
  | resume => exact hmoves _ _ hc resumeQueue_moves
  | addWorker =>
    refine hmoves _ _ hc (Moves.work ?_)
    rw [step]
    unfold Pool.addWorker
    split
    · exact SameTasks.refl c
    · dsimp only
      split
      · exact (SameTasks.tryAddWorker W c).trans (SameTasks.updateIdleState _)
      · exact SameTasks.tryAddWorker W c
  | removeWorker =>
    apply hmoves _ _ hc
    rw [step]
    unfold Pool.removeWorker
    split
    · exact .refl
    · exact (retire_moves _ _).trans (Moves.work (SameTasks.updateIdleState _))
  | resize minSize maxSize => exact hmoves _ _ hc (resize_moves minSize maxSize)
  | reap =>
    apply hmoves _ _ hc
    rw [step]
    unfold Pool.reapIdleWorkers
    split
    · exact .refl
    · exact (retireSwapping_moves _ _ _).trans (Moves.work (SameTasks.updateIdleState _))
  | autoScale limit add remove => exact hmoves _ _ hc (autoScaleTick_moves limit add remove)
  | observe => exact hmoves _ _ hc (Moves.work (SameTasks.observeIdle c))
  | shutdown => exact hmoves _ _ hc shutdown_moves

/-- A run starts with nothing queued, posted or asked for. -/
theorem new_same (W : World) (config : Config) (minSize maxSize initial sequence : ℕ) :
    SameTasks { toConfig := config } (Pool.new W config minSize maxSize initial sequence : Pool V) := by
  have hstart : SameTasks ({ toConfig := config } : Pool V)
      { toConfig := config, minSize, maxSize := max minSize maxSize, correlationSequence := sequence } := by
    constructor <;> rfl
  exact hstart.trans (SameTasks.addWorkers W _ initial)

theorem queueOk_new (W : World) (config : Config) (minSize maxSize initial sequence : ℕ) :
    QueueOk (Pool.new W config minSize maxSize initial sequence : Pool V) := by
  have h := new_same (V := V) W config minSize maxSize initial sequence
  constructor
  · intro cap _
    rw [h.queue]
    exact Nat.zero_le cap
  · rw [h.queue]
    exact fun item hitem => absurd hitem List.not_mem_nil

/-- Conditions that are always met. -/
theorem eventMeets_of (hP : ∀ c m tr o detached, P c m tr o detached) (hB : ∀ c items o, B c items o)
    (c : Pool V) (e : Event V) : EventMeets W T P B c e := by
  have heach (detached : List ℕ) (posts : List (Pool.BatchItem V × PostOptions)) :
      ∀ c : Pool V, EachMeets W T P detached c posts := by
    induction posts with
    | nil => exact fun _ => trivial
    | cons p posts ih => exact fun c => ⟨hP _ _ _ _ _, fun _ => ih _⟩
  cases e with
  | post m tr o detached => exact hP c m tr o detached
  | batch items o ids detached =>
    intro _
    split
    · exact fun _ => heach _ _ c
    · exact hB c items o
  | stopThePress recreate m tr o detached =>
    cases recreate with
    | true => exact hP _ m tr o detached
    | false => exact trivial
  | _ => exact trivial

theorem step_moves (hitem : ∀ item : QueueItem V, item.Kept → A.item item)
    (hrequest : ∀ c key o, A.request c key o) (hposted : ∀ p, A.post p) (hb : Bounded c) (e : Event V) :
    Moves W T A c (step W T c e) := by
  refine (step_keeps (I := fun c' => Bounded c' ∧ Moves W T A c c') (fun c hc => hc.1) ?_ ?_ ?_
    ⟨hb, .refl⟩ (eventMeets_of (P := fun _ _ _ _ _ => True) (B := fun _ _ _ => True)
      (fun _ _ _ _ _ => trivial) (fun _ _ _ => trivial) c e)).2
  · intro d d' hd h
    refine ⟨h.bounded hd.1, hd.2.trans (h.mono (A := Allowed.rest V) ?_ ?_ fun p _ => hposted p)⟩
    · exact fun item h => hitem item h.2.2
    · exact fun c key o _ => hrequest c key o
  · intro d m tr o detached hd _
    have h : Moves W T A d (d.postMessageInner W T m tr o detached).1 :=
      postMessageInner_moves hd.1 (fun _ => hrequest _ _ _) (fun _ item h => hitem item h.kept)
        fun _ _ _ p _ => hposted p
    exact ⟨h.bounded hd.1, hd.2.trans h⟩
  · intro d items o hd _
    have h : Moves W T A d (d.fireAndForget W T items o).1 :=
      fireAndForget_moves hd.1 (fun _ _ item h => hitem item h.kept) fun p _ => hposted p
    exact ⟨h.bounded hd.1, hd.2.trans h⟩

theorem queueOk_step (hc : QueueOk c) (e : Event V) : QueueOk (step W T c e) :=
  (step_moves (A := Allowed.any V) (fun _ _ => trivial) (fun _ _ _ => trivial) (fun _ => trivial)
    hc.bounded e).queueOk hc

end

end PerformanceHelpers.PowerPool
