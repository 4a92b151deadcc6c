import PerformanceHelpers.PowerScheduler
import PerformanceHelpers.Run

/- `PowerBatch` (`src/helpers/powerBatch.js`): items are collected until the scheduler or the size of
   the batch flushes them to the handler.

   The handler is called in the middle of `_runBatch`, when nothing of it is left to do but to wait for
   the outcome. What the handler does before it returns, `add`, `flush` and `clear` included, is
   therefore what happens next, and its outcome (or what it throws at once) comes any time later, in
   any order with those of other batches. -/
namespace PerformanceHelpers.PowerBatch

open PowerScheduler (Scheduler Strategy Armed)

/-- `maxSize` is a whole number of at least `1`, or `Infinity`. -/
structure Options where
  maxSize : Option ℕ
  positive : ∀ n ∈ maxSize, 1 ≤ n

inductive Reason (E : Type) where
  | handler (err : E)
  | error (message : String)
  deriving DecidableEq

inductive Outcome (E : Type) where
  | resolved
  | rejected (reason : Reason E)
  deriving DecidableEq

/-- Items that left the queue together with the promise of those who added them: a batch that the
handler was called with, whose outcome comes later, or what `clear` dropped. -/
structure Handed (α E : Type) where
  items : List α
  promise : Option ℕ
  outcome : Option (Outcome E)
  toHandler : Bool
  deriving DecidableEq

/-- The fields of the batch, every promise that was made with its outcome, and what has happened:
every item that was added with the promise that `add` returned, and what left the queue. `uncaught`
are the errors that no promise took. -/
structure Batch (α E : Type) where
  options : Options
  scheduler : Scheduler
  queue : List α
  pending : Option ℕ
  promises : List (Option (Outcome E))
  added : List (α × ℕ)
  handed : List (Handed α E)
  uncaught : List E

section
variable {α E : Type}

def new (options : Options) (strategy : Strategy) : Batch α E :=
  ⟨options, PowerScheduler.new strategy, [], none, [], [], [], []⟩

/-- A promise settles once. -/
def settle (s : Batch α E) (p : ℕ) (outcome : Outcome E) : Batch α E :=
  { s with promises := s.promises.modify p fun settled => settled.or (some outcome) }

def ensurePending (s : Batch α E) : Batch α E × ℕ :=
  match s.pending with
  | some p => (s, p)
  | none => ({ s with pending := some s.promises.length, promises := s.promises ++ [none] }, s.promises.length)

/-- `_runBatch` until the handler is called. -/
def runBatch (s : Batch α E) : Batch α E :=
  match s.queue with
  | [] =>
    match s.pending with
    | some p => { settle s p .resolved with pending := none }
    | none => s
  | item :: items =>
    { s with queue := [], pending := none, handed := s.handed ++ [⟨item :: items, s.pending, none, true⟩] }

/-- The queue has reached `maxSize`. -/
def Full (s : Batch α E) : Prop := ∃ n ∈ s.options.maxSize, n ≤ s.queue.length

instance (s : Batch α E) : Decidable (Full s) :=
  decidable_of_iff (s.options.maxSize.any fun n => decide (n ≤ s.queue.length)) <| by
    unfold Full
    cases s.options.maxSize <;> simp

def enqueue (s : Batch α E) (item : α) : Batch α E :=
  let (s, p) := ensurePending { s with queue := s.queue ++ [item] }
  { s with added := s.added ++ [(item, p)] }

def add (s : Batch α E) (item : α) : Batch α E :=
  let s := enqueue s item
  if Full s then runBatch { s with scheduler := PowerScheduler.cancel s.scheduler }
  else if s.scheduler.scheduled = false then { s with scheduler := PowerScheduler.schedule s.scheduler }
  else s

def flush (s : Batch α E) : Batch α E :=
  if s.queue.length = 0 ∧ s.scheduler.scheduled = false then s
  else
    let s := (ensurePending s).1
    if s.scheduler.scheduled = false then { s with scheduler := PowerScheduler.schedule s.scheduler } else s

def clearedMessage : String := "PowerBatch cleared before flush"

/-- `clear`, and what it drops. -/
def clear (s : Batch α E) : Batch α E :=
  let dropped := if s.queue.length = 0 then [] else
    [⟨s.queue, s.pending, some (.rejected (.error clearedMessage)), false⟩]
  let s' := { s with queue := [], handed := s.handed ++ dropped }
  let s' := match s.pending with
    | some p => { settle s' p (.rejected (.error clearedMessage)) with pending := none }
    | none => s'
  { s' with scheduler := PowerScheduler.cancel s'.scheduler }

/-- A continuation of the scheduler resumes. -/
def tick (s : Batch α E) (i : ℕ) : Batch α E :=
  let (scheduler, flushes) := PowerScheduler.fire s.scheduler i
  if flushes = true then runBatch { s with scheduler } else { s with scheduler }

def outcomeOf : Except E Unit → Outcome E
  | .ok () => .resolved
  | .error err => .rejected (.handler err)

/-- The end of `_runBatch`: the handler of the `n`-th entry has an outcome. -/
def handlerSettles (s : Batch α E) (n : ℕ) (result : Except E Unit) : Batch α E :=
  match s.handed[n]? with
  | none => s
  | some entry =>
    if entry.toHandler = true ∧ entry.outcome.isNone = true then
      let s := { s with handed := s.handed.set n { entry with outcome := some (outcomeOf result) } }
      match entry.promise, result with
      | some p, result => settle s p (outcomeOf result)
      | none, .ok () => s
      | none, .error err => { s with uncaught := s.uncaught ++ [err] }
    else s

end

inductive Event (α E : Type) where
  | add (item : α)
  | flush
  | clear
  | tick (i : ℕ)
  | handlerSettles (n : ℕ) (result : Except E Unit)

section
variable {α E : Type}

def step (s : Batch α E) : Event α E → Batch α E
  | .add item => add s item
  | .flush => flush s
  | .clear => clear s
  | .tick i => tick s i
  | .handlerSettles n result => handlerSettles s n result

def outcome (s : Batch α E) (p : ℕ) : Option (Outcome E) := s.promises[p]?.join

/-- Nothing is lost and nothing doubled. What left the queue, in order, and what is still there are
the items that were added, each once and in the order they were added, and the promise that `add`
returned for an item has the outcome of the entry that carried it: that of the handler, none while the
handler has not settled or the item is in the queue, and the error of `clear` for what was dropped. No
batch is too large, no error goes without a promise, and what is in the queue goes to the handler when
the scheduler comes to it. -/
structure Conserved (s : Batch α E) : Prop where
  carried : (s.handed.flatMap fun entry => entry.items.map fun item => (item, entry.outcome)) ++
    s.queue.map (fun item => (item, none)) = s.added.map fun a => (a.1, outcome s a.2)
  bounded : ∀ entry ∈ s.handed, entry.toHandler = true → ∀ n ∈ s.options.maxSize, entry.items.length ≤ n
  dropped : ∀ entry ∈ s.handed, entry.toHandler = false →
    entry.outcome = some (.rejected (.error clearedMessage))
  caught : s.uncaught = []
  flushed : s.queue ≠ [] → ∃ i, (step s (.tick i)).queue = [] ∧
    (step s (.tick i)).handed = s.handed ++ [⟨s.queue, s.pending, none, true⟩]

/-! ## The promises -/

variable {s : Batch α E}

/-- Every item that was added has left the queue with the promise that `add` returned, or waits with
it; each entry has a promise of its own, which has the outcome of the entry, and the pending promise
has none. -/
structure Core (s : Batch α E) : Prop where
  promised : (s.handed.flatMap fun entry => entry.items.map fun item => (item, entry.promise)) ++
    s.queue.map (fun item => (item, s.pending)) = s.added.map fun a => (a.1, some a.2)
  known : ∀ entry ∈ s.handed, ∃ p, entry.promise = some p ∧ s.promises[p]? = some entry.outcome
  waiting : ∀ p, s.pending = some p → s.promises[p]? = some none
  distinct : (s.handed.map Handed.promise).Nodup
  fresh : s.pending ∉ s.handed.map Handed.promise
  idle : s.queue = [] ↔ s.pending = none
  bounded : ∀ entry ∈ s.handed, entry.toHandler = true → ∀ n ∈ s.options.maxSize, entry.items.length ≤ n
  dropped : ∀ entry ∈ s.handed, entry.toHandler = false →
    entry.outcome = some (.rejected (.error clearedMessage))
  caught : s.uncaught = []
  armed : Armed s.scheduler

structure Inv (s : Batch α E) : Prop where
  core : Core s
  scheduled : s.queue = [] ↔ s.scheduler.scheduled = false
  room : ∀ n ∈ s.options.maxSize, s.queue.length < n

theorem Core.scheduler (h : Core s) {scheduler : Scheduler} (ha : Armed scheduler) :
    Core { s with scheduler } :=
  ⟨h.promised, h.known, h.waiting, h.distinct, h.fresh, h.idle, h.bounded, h.dropped, h.caught, ha⟩

theorem enqueue_cases (h : Core s) (item : α) :
    (∃ p, s.pending = some p ∧
      enqueue s item = { s with queue := s.queue ++ [item], added := s.added ++ [(item, p)] }) ∨
    s.pending = none ∧ s.queue = [] ∧ enqueue s item =
      { s with
        queue := [item]
        pending := some s.promises.length
        promises := s.promises ++ [none]
        added := s.added ++ [(item, s.promises.length)] } := by
  unfold enqueue ensurePending
  cases hp : s.pending with
  | some p => exact Or.inl ⟨p, rfl, rfl⟩
  | none =>
    have hq := h.idle.mpr hp
    refine Or.inr ⟨rfl, hq, ?_⟩
    dsimp only
    rw [hq]
    rfl

theorem Core.enqueue (h : Core s) (item : α) : Core (enqueue s item) := by
  rcases enqueue_cases h item with ⟨p, hp, heq⟩ | ⟨hp, hq, heq⟩
  · rw [heq]
    refine ⟨?_, h.known, h.waiting, h.distinct, h.fresh, ?_, h.bounded, h.dropped, h.caught, h.armed⟩
    · dsimp only
      rw [List.map_append, List.map_append, ← List.append_assoc, h.promised, hp]
      rfl
    · dsimp only
      rw [hp]
      exact iff_of_false (by simp) (by simp)
  · rw [heq]
    have hpromised := h.promised
    rw [hq, List.map_nil, List.append_nil] at hpromised
    refine ⟨?_, ?_, ?_, h.distinct, ?_, ?_, h.bounded, h.dropped, h.caught, h.armed⟩
    · dsimp only
      rw [List.map_append, hpromised]
      rfl
    · intro entry hentry
      obtain ⟨p, hpromise, hsettled⟩ := h.known entry hentry
      refine ⟨p, hpromise, ?_⟩
      have hlt := (List.getElem?_eq_some_iff.mp hsettled).1
      show (s.promises ++ [none])[p]? = _
      rw [List.getElem?_append_left hlt]
      exact hsettled
    · intro p hpending
      obtain rfl := Option.some.inj hpending
      show (s.promises ++ [none])[s.promises.length]? = _
      rw [List.getElem?_append_right (Nat.le_refl _), Nat.sub_self]
      rfl
    · intro hmem
      obtain ⟨entry, hentry, hpromise⟩ := List.mem_map.mp hmem
      obtain ⟨p, hp', hsettled⟩ := h.known entry hentry
      have hlt := (List.getElem?_eq_some_iff.mp hsettled).1
      rw [hp'] at hpromise
      exact Nat.ne_of_lt hlt (Option.some.inj hpromise)
    · exact iff_of_false (by simp) (by simp)

/-- The queue goes to the handler with the pending promise. -/
theorem runBatch_eq (h : s.queue ≠ []) : runBatch s =
    { s with queue := [], pending := none, handed := s.handed ++ [⟨s.queue, s.pending, none, true⟩] } := by
  unfold runBatch
  split
  · next hq => exact absurd hq h
  · next hq => rw [hq]

/-- Leaving the queue: the items go with their promise, which has the outcome of their entry. -/
theorem Core.hand (promises : List (Option (Outcome E))) (outcome : Option (Outcome E)) (toHandler : Bool)
    (h : Core s) (hq : s.queue ≠ [])
    (hold : ∀ p, s.pending ≠ some p → promises[p]? = s.promises[p]?)
    (hnew : ∀ p, s.pending = some p → promises[p]? = some outcome)
    (hbounded : toHandler = true → ∀ n ∈ s.options.maxSize, s.queue.length ≤ n)
    (hdropped : toHandler = false → outcome = some (.rejected (.error clearedMessage))) :
    Core { s with
      queue := []
      pending := none
      promises := promises
      handed := s.handed ++ [⟨s.queue, s.pending, outcome, toHandler⟩] } := by
  have hp : s.pending ≠ none := fun hnone => hq (h.idle.mpr hnone)
  refine ⟨?_, ?_, ?_, ?_, ?_, iff_of_true rfl rfl, ?_, ?_, h.caught, h.armed⟩
  · dsimp only
    rw [List.flatMap_append, List.map_nil, List.append_nil, List.flatMap_singleton]
    exact h.promised
  · intro entry hentry
    rcases List.mem_append.mp hentry with hentry | hentry
    · obtain ⟨p, hpromise, hsettled⟩ := h.known entry hentry
      refine ⟨p, hpromise, ?_⟩
      show promises[p]? = _
      rw [hold p, hsettled]
      intro hpending
      refine h.fresh (List.mem_map.mpr ⟨entry, hentry, ?_⟩)
      rw [hpromise, hpending]
    · obtain rfl := List.mem_singleton.mp hentry
      obtain ⟨p, hpending⟩ := Option.ne_none_iff_exists'.mp hp
      exact ⟨p, hpending, hnew p hpending⟩
  · exact fun p heq => (Option.some_ne_none p heq.symm).elim
  · dsimp only
    rw [List.map_append]
    refine List.nodup_append.mpr ⟨h.distinct, List.pairwise_singleton _ _, ?_⟩
    intro a ha b hb heq
    obtain rfl := List.mem_singleton.mp hb
    rw [heq] at ha
    exact h.fresh ha
  · intro hmem
    dsimp only at hmem
    rw [List.map_append] at hmem
    rcases List.mem_append.mp hmem with hmem | hmem
    · obtain ⟨entry, hentry, hpromise⟩ := List.mem_map.mp hmem
      obtain ⟨p, hp', -⟩ := h.known entry hentry
      rw [hp'] at hpromise
      exact Option.some_ne_none p hpromise
    · exact hp (List.mem_singleton.mp hmem).symm
  · intro entry hentry
    rcases List.mem_append.mp hentry with hentry | hentry
    · exact h.bounded entry hentry
    · obtain rfl := List.mem_singleton.mp hentry
      exact hbounded
  · intro entry hentry
    rcases List.mem_append.mp hentry with hentry | hentry
    · exact h.dropped entry hentry
    · obtain rfl := List.mem_singleton.mp hentry
      exact hdropped

theorem Core.runBatch (h : Core s) (hq : s.queue ≠ []) (hsize : ∀ n ∈ s.options.maxSize, s.queue.length ≤ n) :
    Core (runBatch s) := by
  rw [runBatch_eq hq]
  exact h.hand s.promises none true hq (fun _ _ => rfl) h.waiting (fun _ => hsize) fun hfalse =>
    Bool.noConfusion hfalse

theorem Inv.handed (h : Core s) (hq : s.queue ≠ []) (hsize : ∀ n ∈ s.options.maxSize, s.queue.length ≤ n)
    (hidle : s.scheduler.scheduled = false) : Inv (PowerBatch.runBatch s) := by
  have hcore := h.runBatch hq hsize
  rw [runBatch_eq hq] at hcore ⊢
  exact ⟨hcore, iff_of_true rfl hidle, fun n hn => s.options.positive n hn⟩

/-! ## The events -/

theorem enqueue_queue (s : Batch α E) (item : α) : (enqueue s item).queue = s.queue ++ [item] := by
  unfold enqueue ensurePending
  cases s.pending <;> rfl

theorem enqueue_options (s : Batch α E) (item : α) : (enqueue s item).options = s.options := by
  unfold enqueue ensurePending
  cases s.pending <;> rfl

theorem Inv.add (h : Inv s) (item : α) : Inv (add s item) := by
  have hcore := h.core.enqueue item
  have hq : (enqueue s item).queue ≠ [] := by
    rw [enqueue_queue]
    simp
  have hsize : ∀ n ∈ (enqueue s item).options.maxSize, (enqueue s item).queue.length ≤ n := by
    intro n hn
    rw [enqueue_options] at hn
    rw [enqueue_queue, List.length_append, List.length_singleton]
    exact h.room n hn
  unfold PowerBatch.add
  dsimp only
  by_cases hfull : Full (enqueue s item)
  · rw [if_pos hfull]
    have harmed := PowerScheduler.armed_of_idle (PowerScheduler.cancel_scheduled (enqueue s item).scheduler)
    exact Inv.handed (hcore.scheduler harmed) hq hsize (PowerScheduler.cancel_scheduled _)
  · rw [if_neg hfull]
    have hroom : ∀ n ∈ (enqueue s item).options.maxSize, (enqueue s item).queue.length < n :=
      fun n hn => Nat.lt_of_not_le fun hle => hfull ⟨n, hn, hle⟩
    split
    · refine ⟨hcore.scheduler (PowerScheduler.schedule_armed hcore.armed), ?_, hroom⟩
      exact iff_of_false hq (by simp)
    · next hscheduled => exact ⟨hcore, iff_of_false hq hscheduled, hroom⟩

/-- What waits is scheduled already: a flush only waits for it. -/
theorem flush_eq (h : Inv s) : flush s = s := by
  unfold flush
  by_cases hq : s.queue = []
  · rw [if_pos ⟨by rw [hq]; rfl, h.scheduled.mp hq⟩]
  · have hs : ¬s.scheduler.scheduled = false := fun hidle => hq (h.scheduled.mpr hidle)
    rw [if_neg fun hboth => hs hboth.2]
    obtain ⟨p, hp⟩ := Option.ne_none_iff_exists'.mp fun hnone => hq (h.core.idle.mpr hnone)
    have hpending : ensurePending s = (s, p) := by
      unfold ensurePending
      rw [hp]
    dsimp only
    rw [hpending, if_neg hs]

theorem settle_get (s : Batch α E) (p q : ℕ) (o : Outcome E) :
    (settle s p o).promises[q]? = if p = q then s.promises[q]?.map (·.or (some o)) else s.promises[q]? := by
  show (s.promises.modify p _)[q]? = _
  rw [List.getElem?_modify]
  split
  · rfl
  · cases s.promises[q]? <;> rfl

theorem Inv.clear (h : Inv s) : Inv (clear s) := by
  unfold PowerBatch.clear
  have harmed := PowerScheduler.armed_of_idle (PowerScheduler.cancel_scheduled s.scheduler)
  have hpositive : ∀ n ∈ s.options.maxSize, 0 < n := s.options.positive
  by_cases hq : s.queue = []
  · have hp := h.core.idle.mp hq
    dsimp only
    rw [hp, if_pos (by rw [hq]; rfl), List.append_nil]
    dsimp only
    rw [← hp, ← hq]
    refine ⟨h.core.scheduler harmed, iff_of_true hq (PowerScheduler.cancel_scheduled _), ?_⟩
    rw [hq]
    exact hpositive
  · obtain ⟨p, hp⟩ := Option.ne_none_iff_exists'.mp fun hnone => hq (h.core.idle.mpr hnone)
    have hlen : s.queue.length ≠ 0 := fun hzero => hq (List.length_eq_zero_iff.mp hzero)
    dsimp only
    rw [if_neg hlen, hp]
    dsimp only
    have hhand := (h.core.scheduler harmed).hand (settle s p (.rejected (.error clearedMessage))).promises
      (some (.rejected (.error clearedMessage))) false hq ?_ ?_ (fun htrue => Bool.noConfusion htrue)
      (fun _ => rfl)
    · refine ⟨?_, iff_of_true rfl (PowerScheduler.cancel_scheduled _), hpositive⟩
      rw [hp] at hhand
      exact hhand
    · intro q hne
      rw [settle_get, if_neg]
      rintro rfl
      exact hne hp
    · intro q hq'
      replace hq' : s.pending = some q := hq'
      obtain rfl := Option.some.inj (hp.symm.trans hq')
      rw [settle_get, if_pos rfl, h.core.waiting p hp]
      rfl

theorem Inv.tick (h : Inv s) (i : ℕ) : Inv (tick s i) := by
  obtain ⟨hcalls, hsame⟩ := PowerScheduler.fire_scheduled s.scheduler i
  have harmed := PowerScheduler.fire_armed h.core.armed i
  unfold PowerBatch.tick
  generalize PowerScheduler.fire s.scheduler i = fired at hcalls hsame harmed
  obtain ⟨scheduler, flushes⟩ := fired
  dsimp only at hcalls hsame harmed ⊢
  cases flushes with
  | true =>
    obtain ⟨hscheduled, hidle⟩ := hcalls rfl
    have hq : s.queue ≠ [] := by
      intro hq
      rw [h.scheduled.mp hq] at hscheduled
      exact Bool.noConfusion hscheduled
    rw [if_pos rfl]
    exact Inv.handed (h.core.scheduler harmed) hq (fun n hn => Nat.le_of_lt (h.room n hn)) hidle
  | false =>
    rw [if_neg Bool.false_ne_true]
    refine ⟨h.core.scheduler harmed, ?_, h.room⟩
    show s.queue = [] ↔ scheduler.scheduled = false
    rw [hsame rfl]
    exact h.scheduled

/-- An entry that is replaced by one with the same items and promise. -/
theorem map_set_same {β : Type} {entries : List (Handed α E)} {n : ℕ} {entry : Handed α E}
    (entry' : Handed α E) (f : Handed α E → β) (hn : entries[n]? = some entry) (hf : f entry' = f entry) :
    (entries.set n entry').map f = entries.map f := by
  rw [List.map_set, hf]
  apply List.ext_getElem?
  intro i
  rw [List.getElem?_set, List.getElem?_map]
  split
  · next hi =>
    subst hi
    rw [hn]
    exact if_pos (by simpa using (List.getElem?_eq_some_iff.mp hn).1)
  · rfl

theorem Core.settles {n p : ℕ} {entry : Handed α E} (h : Core s) (hn : s.handed[n]? = some entry)
    (hto : entry.toHandler = true) (hopen : entry.outcome = none) (hp : entry.promise = some p)
    (o : Outcome E) :
    Core (settle { s with handed := s.handed.set n { entry with outcome := some o } } p o) := by
  have hmem := List.mem_of_getElem? hn
  have hpromises : ({ entry with outcome := some o } : Handed α E).promise = entry.promise := rfl
  have hmap : (s.handed.set n { entry with outcome := some o }).map Handed.promise =
      s.handed.map Handed.promise := map_set_same _ Handed.promise hn hpromises
  have hcases : ∀ entry' ∈ s.handed.set n { entry with outcome := some o },
      entry' = { entry with outcome := some o } ∨ ∃ k, k ≠ n ∧ s.handed[k]? = some entry' := by
    intro entry' hentry'
    obtain ⟨k, hk⟩ := List.mem_iff_getElem?.mp hentry'
    rw [List.getElem?_set] at hk
    by_cases hkn : n = k
    · rw [if_pos hkn] at hk
      split at hk
      · exact Or.inl (Option.some.inj hk).symm
      · cases hk
    · rw [if_neg hkn] at hk
      exact Or.inr ⟨k, Ne.symm hkn, hk⟩
  have hsettled : s.promises[p]? = some none := by
    obtain ⟨q, hq, hval⟩ := h.known entry hmem
    obtain rfl := Option.some.inj (hp.symm.trans hq)
    rw [hval, hopen]
  refine ⟨?_, ?_, ?_, ?_, ?_, h.idle, ?_, ?_, h.caught, h.armed⟩
  · refine Eq.trans ?_ h.promised
    dsimp only [settle]
    have hitems := map_set_same { entry with outcome := some o }
      (fun entry => entry.items.map fun item => (item, entry.promise)) hn rfl
    rw [List.flatMap_def, List.flatMap_def, hitems]
  · intro entry' hentry'
    rcases hcases entry' hentry' with rfl | ⟨k, hkn, hk⟩
    · refine ⟨p, hp, ?_⟩
      rw [settle_get, if_pos rfl]
      show s.promises[p]?.map _ = _
      rw [hsettled]
      rfl
    · obtain ⟨q, hq, hval⟩ := h.known entry' (List.mem_of_getElem? hk)
      refine ⟨q, hq, ?_⟩
      rw [settle_get, if_neg]
      · exact hval
      · rintro rfl
        -- two entries with one promise
        have hlt := (List.getElem?_eq_some_iff.mp hk).1
        refine hkn ((List.getElem?_inj (by simpa using hlt) h.distinct).mp ?_)
        rw [List.getElem?_map, List.getElem?_map, hk, hn, Option.map_some, Option.map_some, hp, hq]
  · intro q hq
    rw [settle_get, if_neg]
    · exact h.waiting q hq
    · rintro rfl
      refine h.fresh (List.mem_map.mpr ⟨entry, hmem, ?_⟩)
      exact hp.trans (hq : s.pending = some p).symm
  · show ((s.handed.set n _).map Handed.promise).Nodup
    rw [hmap]
    exact h.distinct
  · show s.pending ∉ (s.handed.set n _).map Handed.promise
    rw [hmap]
    exact h.fresh
  · intro entry' hentry'
    rcases hcases entry' hentry' with rfl | ⟨k, -, hk⟩
    · exact h.bounded entry hmem
    · exact h.bounded entry' (List.mem_of_getElem? hk)
  · intro entry' hentry' hfalse
    rcases hcases entry' hentry' with rfl | ⟨k, -, hk⟩
    · rw [hto] at hfalse
      exact Bool.noConfusion hfalse
    · exact h.dropped entry' (List.mem_of_getElem? hk) hfalse

theorem Inv.handlerSettles (h : Inv s) (n : ℕ) (result : Except E Unit) : Inv (handlerSettles s n result) := by
  unfold PowerBatch.handlerSettles
  cases hn : s.handed[n]? with
  | none => exact h
  | some entry =>
    dsimp only
    by_cases hopen : entry.toHandler = true ∧ entry.outcome.isNone = true
    · rw [if_pos hopen]
      obtain ⟨p, hp, -⟩ := h.core.known entry (List.mem_of_getElem? hn)
      rw [hp]
      have hcore := h.core.settles hn hopen.1 (Option.isNone_iff_eq_none.mp hopen.2) hp (outcomeOf result)
      rw [hp] at hcore
      exact ⟨hcore, h.scheduled, h.room⟩
    · rw [if_neg hopen]
      exact h

theorem step_inv (s : Batch α E) (e : Event α E) (h : Inv s) : Inv (step s e) := by
  cases e with
  | add item => exact h.add item
  | flush =>
    show Inv (flush s)
    rw [flush_eq h]
    exact h
  | clear => exact h.clear
  | tick i => exact h.tick i
  | handlerSettles n result => exact h.handlerSettles n result

theorem new_inv (options : Options) (strategy : Strategy) : Inv (new options strategy : Batch α E) := by
  refine ⟨⟨rfl, ?_, ?_, List.nodup_nil, List.not_mem_nil, iff_of_true rfl rfl, ?_, ?_, rfl, ?_⟩,
    iff_of_true rfl rfl, options.positive⟩
  · exact fun _ hentry => absurd hentry List.not_mem_nil
  · exact fun p hp => (Option.some_ne_none p hp.symm).elim
  · exact fun _ hentry => absurd hentry List.not_mem_nil
  · exact fun _ hentry => absurd hentry List.not_mem_nil
  · exact PowerScheduler.new_armed strategy

theorem Core.carried (h : Core s) :
    (s.handed.flatMap fun entry => entry.items.map fun item => (item, entry.outcome)) ++
      s.queue.map (fun item => (item, none)) = s.added.map fun a => (a.1, outcome s a.2) := by
  have hmap := congrArg (List.map fun a : α × Option ℕ => (a.1, a.2.bind (outcome s))) h.promised
  rw [List.map_append, List.map_flatMap, List.map_map, List.map_map] at hmap
  refine Eq.trans ?_ hmap
  congr 1
  · refine List.flatMap_congr fun entry hentry => ?_
    obtain ⟨p, hp, hsettled⟩ := h.known entry hentry
    rw [List.map_map]
    refine List.map_congr_left fun item _ => ?_
    show (item, entry.outcome) = (item, entry.promise.bind (outcome s))
    rw [hp]
    show _ = (item, s.promises[p]?.join)
    rw [hsettled]
    rfl
  · refine List.map_congr_left fun item hitem => ?_
    show (item, none) = (item, s.pending.bind (outcome s))
    cases hp : s.pending with
    | none => rfl
    | some p =>
      show _ = (item, s.promises[p]?.join)
      rw [h.waiting p hp]
      rfl

theorem Inv.flushed (h : Inv s) (hq : s.queue ≠ []) : ∃ i, (step s (.tick i)).queue = [] ∧
    (step s (.tick i)).handed = s.handed ++ [⟨s.queue, s.pending, none, true⟩] := by
  have hscheduled : s.scheduler.scheduled = true := by
    rw [← Bool.not_eq_false]
    exact fun hidle => hq (h.scheduled.mpr hidle)
  obtain ⟨i, hi⟩ := h.core.armed.fires hscheduled
  refine ⟨i, ?_⟩
  show (PowerBatch.tick s i).queue = [] ∧ (PowerBatch.tick s i).handed = _
  unfold PowerBatch.tick
  generalize PowerScheduler.fire s.scheduler i = fired at hi
  obtain ⟨scheduler, flushes⟩ := fired
  obtain rfl : flushes = true := hi
  dsimp only
  rw [if_pos rfl, runBatch_eq (s := { s with scheduler }) hq]
  exact ⟨rfl, rfl⟩

theorem Inv.conserved (h : Inv s) : Conserved s :=
  ⟨h.core.carried, h.core.bounded, h.core.dropped, h.core.caught, h.flushed⟩

end

end PerformanceHelpers.PowerBatch
