import PerformanceHelpers.RealtimeHub

/- What one event does to a subscriber of a `PowerRealtimeHub`.

   The calls (`subscribe`, `publish`, `unsubscribe`, `close`) only tend queues: a
   subscriber object gains or loses queued messages and may be closed (`Tends`).
   The loops, callbacks and promise jobs move one subscriber's sends along
   (`Sub.Change`). `step_changes` says so of every event, so a property of a
   subscriber object that each change keeps holds over every run
   (`subs_always`).

   `Valid` ties the counters to what is outstanding: `inFlight` counts the calls of
   `send` on the stack and the transports not settled (`valid_step`). -/
namespace PerformanceHelpers.RealtimeHub
open Function (update_self update_of_ne)

open Relation (ReflTransGen)

section
variable {J : Type}

/-- One thing `_enqueue` or `_detach` does to a subscriber object. -/
inductive Sub.Tend (byPriority : Bool) : Sub J → Sub J → Prop where
  | push (s : Sub J) (x : Queued J) (room : s.queue.length < s.maxQueue) :
    Tend byPriority s
      { s with queue := pushQueue byPriority s.queue x, accepted := s.accepted ++ [x] }
  | dropQueued (s : Sub J) :
    Tend byPriority s
      { s with queue := dropOldest byPriority s.queue, dropped := s.dropped + 1 }
  | refuse (s : Sub J) : Tend byPriority s { s with dropped := s.dropped + 1 }
  | close (s : Sub J) : Tend byPriority s { s with closed := true }

/-- One change of a subscriber object: its queue is tended, it is created, a batch
is spliced and sent or lost, or one of its sends moves along. -/
inductive Sub.Change (byPriority : Bool) : Sub J → Sub J → Prop where
  | tend {s s' : Sub J} (h : Tend byPriority s s') : Change byPriority s s'
  | create (s : Sub J) (id topic : String) (maxQueue : ℕ) (slowConsumer : SlowConsumer)
      (maxBatch : ℕ) (priority : ℚ) (pos : 1 ≤ maxBatch) :
    Change byPriority s
      ⟨id, topic, maxQueue, slowConsumer, maxBatch, priority, [], 0, 0, 0, false, 0, 0, [], []⟩
  | send (s : Sub J) :
    Change byPriority s
      { s with
        queue := s.queue.drop s.maxBatch, inFlight := s.inFlight + 1
        handed := s.handed ++ s.queue.take s.maxBatch }
  | lose (s : Sub J) (n : ℕ) :
    Change byPriority s
      { s with queue := s.queue.drop s.maxBatch, dropped := s.dropped + n }
  | returned (s : Sub J) (bytes : ℕ) :
    Change byPriority s
      { s with bytesSent := s.bytesSent + bytes, settling := s.settling + 1 }
  | threw (s : Sub J) : Change byPriority s { s with inFlight := s.inFlight - 1 }
  | settled (s : Sub J) :
    Change byPriority s
      { s with
        inFlight := s.inFlight - 1, settling := s.settling - 1, chained := s.chained + 1 }
  | handled (s : Sub J) : Change byPriority s { s with chained := s.chained - 1 }

variable {i : ℕ} {topic : String} {h₁ h' h : Hub J} {s : Sub J}

/-- Tending leaves a subscriber's sends alone, and a closed subscriber closed. -/
theorem Sub.tended_keeps {b : Bool} {s' : Sub J} (h : ReflTransGen (Sub.Tend b) s s') :
    s'.inFlight = s.inFlight ∧ s'.settling = s.settling ∧ s'.chained = s.chained ∧
      s'.maxBatch = s.maxBatch ∧ s'.handed = s.handed ∧ (s.closed = true → s'.closed = true) := by
  induction h with
  | refl => exact ⟨rfl, rfl, rfl, rfl, rfl, fun h => h⟩
  | tail _ hstep ih =>
    cases hstep with
    | push x => exact ih
    | dropQueued => exact ih
    | refuse => exact ih
    | close =>
      obtain ⟨h1, h2, h3, h4, h5, -⟩ := ih
      exact ⟨h1, h2, h3, h4, h5, fun _ => rfl⟩

/-! ## The calls tend queues -/

/-- `h'` is `h` with queues tended and subscribers detached. -/
structure Tends (h h' : Hub J) : Prop where
  rest : h' =
    { h with
      subs := h'.subs, subscribers := h'.subscribers, topics := h'.topics
      retained := h'.retained, counters := h'.counters }
  tended : ∀ i, ReflTransGen (Sub.Tend h.messagePriority) (h.subs i) (h'.subs i)
  listed : ∀ i ∈ h.subscribers, (h'.subs i).closed = false → i ∈ h'.subscribers

theorem Tends.refl (h : Hub J) : Tends h h := ⟨rfl, fun _ => .refl, fun _ hi _ => hi⟩

theorem Tends.trans (h₀ : Tends h h₁) (ht : Tends h₁ h') : Tends h h' where
  rest := by rw [ht.rest, h₀.rest]
  tended := by
    intro i
    have hmp : h₁.messagePriority = h.messagePriority := by rw [h₀.rest]
    exact (h₀.tended i).trans (hmp ▸ ht.tended i)
  listed := by
    intro i hi hc
    have hopen : (h₁.subs i).closed = false := by
      by_contra hclosed
      have := (Sub.tended_keeps (ht.tended i)).2.2.2.2.2 (by simpa using hclosed)
      rw [hc] at this
      cases this
    exact ht.listed i (h₀.listed i hi hopen) hc

/-- What every pass of a loop does, the loop does. -/
theorem foldl_rel {α β : Type} {R : β → β → Prop} (refl : ∀ b, R b b)
    (trans : ∀ {b₁ b₂ b₃}, R b₁ b₂ → R b₂ b₃ → R b₁ b₃) {f : β → α → β}
    (hf : ∀ b a, R b (f b a)) (l : List α) : ∀ b, R b (l.foldl f b) := by
  induction l with
  | nil => exact refl
  | cons a l ih => exact fun b => trans (hf b a) (ih (f b a))

theorem setSub_tends (hs : Sub.Tend h.messagePriority (h.subs i) s) :
    Tends h (h.setSub i s) := by
  refine ⟨rfl, fun j => ?_, fun j hj _ => hj⟩
  by_cases hji : j = i
  · subst hji
    simp only [Hub.setSub, update_self]
    exact .single hs
  · simp only [Hub.setSub, update_of_ne hji]
    exact .refl

theorem Tends.counted (ht : Tends h h') (c : Counters) :
    Tends h { h' with counters := c } := by
  refine ⟨?_, ht.tended, ht.listed⟩
  rw [ht.rest]

theorem countDropped_tends (h : Hub J) (i : ℕ) : Tends h (countDropped h i 1) :=
  (setSub_tends (Sub.Tend.refuse (h.subs i))).counted _

theorem detach_tends (h : Hub J) (i : ℕ) : Tends h (detach h i) := by
  simp only [detach]
  split
  · exact Tends.refl h
  · have hset := setSub_tends (Sub.Tend.close (h.subs i) : Sub.Tend h.messagePriority _ _)
    refine ⟨rfl, hset.tended, fun j hj hc => ?_⟩
    have hji : j ≠ i := by
      intro hji
      subst hji
      simp [Hub.setSub] at hc
    exact (List.mem_erase_of_ne hji).mpr hj

theorem dropQueued_tends (h : Hub J) (i : ℕ) : Tends h (dropQueued h i) := by
  refine ⟨rfl, fun j => ?_, fun j hj _ => hj⟩
  by_cases hji : j = i
  · subst hji
    simp only [dropQueued, countDropped, Hub.setSub, update_self]
    exact .single (Sub.Tend.dropQueued _)
  · simp only [dropQueued, countDropped, Hub.setSub, update_of_ne hji]
    exact .refl

/-! The other subscribers, and what can fill a queue. -/

/-- Tending that adds nothing to a queue and touches only subscriber `i`. -/
structure Trims (i : ℕ) (h h' : Hub J) : Prop where
  tends : Tends h h'
  others : ∀ j ≠ i, h'.subs j = h.subs j
  filled : (h'.subs i).queue ≠ [] → (h.subs i).queue ≠ []

theorem Trims.refl (i : ℕ) (h : Hub J) : Trims i h h := ⟨Tends.refl h, fun _ _ => rfl, fun h => h⟩

theorem Trims.trans (h₀ : Trims i h h₁) (ht : Trims i h₁ h') :
    Trims i h h' :=
  ⟨h₀.tends.trans ht.tends, fun j hj => (ht.others j hj).trans (h₀.others j hj),
    fun hq => h₀.filled (ht.filled hq)⟩

theorem detach_trims (h : Hub J) (i : ℕ) : Trims i h (detach h i) := by
  refine ⟨detach_tends h i, fun j hj => ?_, ?_⟩
  · simp only [detach]
    split
    · rfl
    · exact update_of_ne hj _ _
  · simp only [detach]
    split
    · exact fun hq => hq
    · simp [Hub.setSub]

theorem refuse_trims (h : Hub J) (i : ℕ) : Trims i h (refuse h i) := by
  have hcount : Trims i h (countDropped h i 1) := by
    refine ⟨countDropped_tends h i, fun j hj => update_of_ne hj _ _, ?_⟩
    simp [countDropped, Hub.setSub]
  unfold refuse
  cases (h.subs i).slowConsumer with
  | dropOldest | dropNewest => exact hcount
  | disconnect =>
    refine Trims.trans ?_ (detach_trims _ i)
    exact ⟨hcount.tends.counted _, hcount.others, hcount.filled⟩

theorem dropQueued_trims (h : Hub J) (i : ℕ) : Trims i h (dropQueued h i) := by
  refine ⟨dropQueued_tends h i, fun j hj => ?_, ?_⟩
  · simp [dropQueued, countDropped, Hub.setSub, hj]
  · simp only [dropQueued, countDropped, Hub.setSub, update_self]
    intro hq hnil
    apply hq
    rw [hnil]
    cases h.messagePriority <;> rfl

theorem makeRoom_trims (i : ℕ) : ∀ (turns : ℕ) (h : Hub J), Trims i h (makeRoom i turns h).1 ∧
    ((makeRoom i turns h).2 = true →
      ((makeRoom i turns h).1.subs i).queue.length < ((makeRoom i turns h).1.subs i).maxQueue) := by
  intro turns
  induction turns with
  | zero =>
    intro h
    rw [makeRoom]
    split_ifs with hroom
    · exact ⟨Trims.refl i h, fun _ => hroom⟩
    · exact ⟨refuse_trims h i, fun hfalse => hfalse.elim⟩
  | succ turns ih =>
    intro h
    rw [makeRoom]
    split_ifs with hroom hdrop
    · exact ⟨Trims.refl i h, fun _ => hroom⟩
    · obtain ⟨htrim, hlt⟩ := ih (dropQueued h i)
      exact ⟨(dropQueued_trims h i).trans htrim, hlt⟩
    · exact ⟨refuse_trims h i, fun hfalse => hfalse.elim⟩

theorem enqueue_spec (h : Hub J) (i : ℕ) (m : Message J) (p : ℚ) :
    Tends h (enqueue h i m p).1 ∧ (∀ j ≠ i, (enqueue h i m p).1.subs j = h.subs j) ∧
      ((enqueue h i m p).2 = false → ((enqueue h i m p).1.subs i).queue ≠ [] →
        (h.subs i).queue ≠ []) := by
  obtain ⟨htrim, hroom⟩ := makeRoom_trims i (h.subs i).queue.length h
  generalize hr : makeRoom i (h.subs i).queue.length h = r at htrim hroom
  obtain ⟨h₁, room⟩ := r
  cases room with
  | false =>
    have he : enqueue h i m p = (h₁, false) := by simp only [enqueue, hr]; rfl
    rw [he]
    exact ⟨htrim.tends, htrim.others, fun _ => htrim.filled⟩
  | true =>
    have he : enqueue h i m p = (h₁.setSub i { h₁.subs i with
        queue := pushQueue h₁.messagePriority (h₁.subs i).queue ⟨m, p⟩
        accepted := (h₁.subs i).accepted ++ [⟨m, p⟩] }, true) := by
      simp only [enqueue, hr, if_true]
    rw [he]
    refine ⟨htrim.tends.trans (setSub_tends ?_), fun j hj => ?_, fun hfalse => nomatch hfalse⟩
    · exact Sub.Tend.push (h₁.subs i) ⟨m, p⟩ (hroom rfl)
    · simp only [Hub.setSub, update_of_ne hj]
      exact htrim.others j hj

/-! `publish` and `subscribe`. -/

/-- A pass of `publish`'s loop leaves the closed subscribers alone, and fills a
queue only when it counts it. -/
structure Offers (acc acc' : Hub J × ℕ) : Prop where
  tends : Tends acc.1 acc'.1
  closed_same : ∀ j, (acc.1.subs j).closed = true → acc'.1.subs j = acc.1.subs j
  count_le : acc.2 ≤ acc'.2
  filled : acc'.2 = acc.2 → ∀ j, (acc'.1.subs j).queue ≠ [] → (acc.1.subs j).queue ≠ []

theorem offer_offers (m : Message J) (p : ℚ) (acc : Hub J × ℕ) (i : ℕ) :
    Offers acc (offer m p acc i) := by
  unfold offer
  split
  · exact ⟨Tends.refl _, fun _ _ => rfl, le_rfl, fun _ _ hq => hq⟩
  · rename_i hopen
    obtain ⟨htends, hothers, hfilled⟩ := enqueue_spec acc.1 i m p
    generalize hr : enqueue acc.1 i m p = r at htends hothers hfilled
    obtain ⟨h₁, accepted⟩ := r
    simp only
    refine ⟨htends, fun j hj => hothers j ?_, ?_, fun hcount j hq => ?_⟩
    · intro hji
      subst hji
      exact hopen hj
    · cases accepted <;> simp
    · by_cases hji : j = i
      · subst hji
        cases accepted with
        | false => exact hfilled rfl hq
        | true => simp at hcount
      · rwa [hothers j hji] at hq

theorem Offers.refl (acc : Hub J × ℕ) : Offers acc acc :=
  ⟨Tends.refl _, fun _ _ => rfl, le_rfl, fun _ _ hq => hq⟩

theorem Offers.trans {a b c : Hub J × ℕ} (h : Offers a b) (h' : Offers b c) : Offers a c where
  tends := h.tends.trans h'.tends
  closed_same := by
    intro j hj
    have hb : b.1.subs j = a.1.subs j := h.closed_same j hj
    rw [← hb] at hj
    rw [h'.closed_same j hj, hb]
  count_le := h.count_le.trans h'.count_le
  filled := by
    intro hcount j hq
    have h₁ := h.count_le
    have h₂ := h'.count_le
    exact h.filled (by omega) j (h'.filled (by omega) j hq)

/-- A flush is on its way: a timer runs or a microtask is queued. -/
def Pending (h : Hub J) : Prop := h.flushTimer = true ∨ 0 < h.microtasks

/-- The schedule after `_scheduleFlush`. -/
structure Schedules (h h' : Hub J) : Prop where
  rest : h' =
    { h with
      flushScheduled := h'.flushScheduled, flushTimer := h'.flushTimer
      microtasks := h'.microtasks }
  pending : Pending h → Pending h'
  flag : (h.flushScheduled = true → Pending h) → h'.flushScheduled = true → Pending h'
  batched : h.batch = true → (h.flushScheduled = true → Pending h) → Pending h'

theorem scheduleFlush_schedules (h : Hub J) : Schedules h (scheduleFlush h) := by
  unfold scheduleFlush
  split_ifs with hb hs hd
  · refine ⟨rfl, fun hp => hp, fun hf => hf, fun hbatch => ?_⟩
    simp [hbatch] at hb
  · exact ⟨rfl, fun hp => hp, fun hf => hf, fun _ hf => hf hs⟩
  · exact ⟨rfl, fun _ => Or.inl rfl, fun _ _ => Or.inl rfl, fun _ _ => Or.inl rfl⟩
  · have hpend : 0 < h.microtasks + 1 := Nat.succ_pos _
    exact ⟨rfl, fun _ => Or.inr hpend, fun _ _ => Or.inr hpend, fun _ _ => Or.inr hpend⟩

/-- `_enqueue` called for one subscriber only. -/
structure TendsOne (i : ℕ) (h h' : Hub J) : Prop where
  tends : Tends h h'
  others : ∀ j ≠ i, h'.subs j = h.subs j

theorem replay_tends (h : Hub J) (i : ℕ) (topic : String) (log : List (Message J)) :
    TendsOne i h (replay h i topic log) := by
  apply foldl_rel (fun b => ⟨Tends.refl b, fun _ _ => rfl⟩)
    (fun h₁ h₂ => ⟨h₁.tends.trans h₂.tends, fun j hj => (h₂.others j hj).trans (h₁.others j hj)⟩)
  intro b m
  split
  · exact ⟨Tends.refl b, fun _ _ => rfl⟩
  · obtain ⟨htends, hothers, -⟩ := enqueue_spec b i m 0
    exact ⟨htends, hothers⟩

/-! ## The counters and what is outstanding -/

/-- The activity is a call of `send` to `i`. -/
def Activity.sendsTo (i : ℕ) : Activity → Bool
  | .send j _ => j == i
  | _ => false

theorem countP_send (i j bytes : ℕ) (stack : List Activity) :
    (Activity.send i bytes :: stack).countP (·.sendsTo j) =
      stack.countP (·.sendsTo j) + if j = i then 1 else 0 := by
  rw [List.countP_cons]
  by_cases hji : j = i
  · simp [Activity.sendsTo, hji]
  · simp [Activity.sendsTo, hji, Ne.symm hji]

theorem countP_stack {bytes : ℕ} {stack : List Activity} (hs : h.stack = .send i bytes :: stack) (j : ℕ) :
    h.stack.countP (·.sendsTo j) = stack.countP (·.sendsTo j) + if j = i then 1 else 0 := by
  rw [hs]
  exact countP_send i j bytes stack

/-- The sends to `i` the transport has not settled: calls of `send` that have not
returned, and promises. -/
def sending (h : Hub J) (i : ℕ) : ℕ := h.stack.countP (·.sendsTo i) + (h.subs i).settling

structure Valid (h : Hub J) : Prop where
  inFlight_eq : ∀ i, (h.subs i).inFlight = sending h i
  unused : ∀ i, h.nextSub ≤ i →
    (h.subs i).closed = true ∧ (h.subs i).queue = [] ∧ sending h i = 0 ∧
      (h.subs i).chained = 0 ∧ (h.subs i).handed = []
  listed : ∀ i, (h.subs i).closed = false → i ∈ h.subscribers
  shut : h.closed = true → ∀ i, (h.subs i).closed = true
  scheduled : h.closed = false → h.flushScheduled = true → Pending h
  maxBatch_pos : ∀ i, 1 ≤ (h.subs i).maxBatch

theorem Valid.tends (hv : Valid h) (ht : Tends h h')
    (hsame : ∀ j, h.nextSub ≤ j → h'.subs j = h.subs j) : Valid h' := by
  have hkeep := fun i => Sub.tended_keeps (ht.tended i)
  have hstack : h'.stack = h.stack := by rw [ht.rest]
  have hnext : h'.nextSub = h.nextSub := by rw [ht.rest]
  have hclosed : h'.closed = h.closed := by rw [ht.rest]
  have hsending : ∀ i, sending h' i = sending h i := by
    intro i
    rw [sending, sending, hstack, (hkeep i).2.1]
  have hopen : ∀ i, (h'.subs i).closed = false → (h.subs i).closed = false := by
    intro i hc
    by_contra hne
    have := (hkeep i).2.2.2.2.2 (by simpa using hne)
    rw [hc] at this
    cases this
  refine ⟨fun i => ?_, fun i hi => ?_, fun i hc => ?_, fun hc i => ?_, fun hc hs => ?_, fun i => ?_⟩
  · rw [(hkeep i).1, hsending, hv.inFlight_eq]
  · rw [hnext] at hi
    rw [hsame i hi, hsending]
    exact hv.unused i hi
  · exact ht.listed i (hv.listed i (hopen i hc)) hc
  · rw [hclosed] at hc
    exact (hkeep i).2.2.2.2.2 (hv.shut hc i)
  · rw [hclosed] at hc
    have hflag : h'.flushScheduled = h.flushScheduled := by rw [ht.rest]
    rw [hflag] at hs
    have hpend := hv.scheduled hc hs
    rw [Pending] at hpend ⊢
    rw [ht.rest]
    exact hpend
  · rw [(hkeep i).2.2.2.1]
    exact hv.maxBatch_pos i

theorem Valid.schedules (hv : Valid h) (hs : Schedules h h')
    (hopen : h.closed = false) : Valid h' := by
  have hsubs : h'.subs = h.subs := by rw [hs.rest]
  have hsending : ∀ i, sending h' i = sending h i := by
    intro i
    rw [sending, sending, hs.rest]
  refine ⟨fun i => ?_, fun i hi => ?_, fun i hc => ?_, fun hc i => ?_, fun _ hf => ?_, fun i => ?_⟩
  · rw [hsubs, hsending]
    exact hv.inFlight_eq i
  · have hnext : h'.nextSub = h.nextSub := by rw [hs.rest]
    rw [hsubs, hsending]
    exact hv.unused i (hnext ▸ hi)
  · have hlist : h'.subscribers = h.subscribers := by rw [hs.rest]
    rw [hlist]
    exact hv.listed i (hsubs ▸ hc)
  · rw [hsubs]
    have hclosed : h'.closed = h.closed := by rw [hs.rest]
    exact hv.shut (hclosed ▸ hc) i
  · exact hs.flag (hv.scheduled hopen) hf
  · rw [hsubs]
    exact hv.maxBatch_pos i

structure Calls (h h' : Hub J) : Prop where
  valid : Valid h'
  changes : ∀ i, ReflTransGen (Sub.Change h.messagePriority) (h.subs i) (h'.subs i)
  mode : h'.messagePriority = h.messagePriority ∧ h'.batch = h.batch
  busy : h'.stack = h.stack ∧ h'.waiting = h.waiting
  sending_eq : ∀ i, sending h' i = sending h i
  chained_eq : ∀ i, (h'.subs i).chained = (h.subs i).chained
  handed_eq : ∀ i, (h'.subs i).handed = (h.subs i).handed
  frames_eq : h'.frames = h.frames
  pending : h'.closed = false → Pending h → Pending h'
  queued : h.batch = true → ∀ i, (h'.subs i).closed = false → (h'.subs i).queue ≠ [] →
    ((h.subs i).closed = false ∧ (h.subs i).queue ≠ []) ∨ Pending h'

theorem Sub.changes_of_tended {b : Bool} {s' : Sub J} (h : ReflTransGen (Sub.Tend b) s s') :
    ReflTransGen (Sub.Change b) s s' := ReflTransGen.mono (fun _ _ ht => Sub.Change.tend ht) _ _ h

theorem Tends.open_of_open (ht : Tends h h')
    (hc : (h'.subs i).closed = false) : (h.subs i).closed = false := by
  by_contra hne
  have := (Sub.tended_keeps (ht.tended i)).2.2.2.2.2 (by simpa using hne)
  rw [hc] at this
  cases this

theorem Calls.of_tends (hv : Valid h) (ht : Tends h h₁)
    (hsame : ∀ j, h.nextSub ≤ j → h₁.subs j = h.subs j)
    (hs : (h' = h₁ ∧ ∀ j, (h₁.subs j).queue ≠ [] → (h.subs j).queue ≠ []) ∨
      (Schedules h₁ h' ∧ h.closed = false)) : Calls h h' := by
  have hv₁ : Valid h₁ := hv.tends ht hsame
  have hkeep := fun i => Sub.tended_keeps (ht.tended i)
  have hclosed : h₁.closed = h.closed := by rw [ht.rest]
  have hpend : Pending h → Pending h₁ := by
    intro hp
    rw [Pending, ht.rest]
    exact hp
  rcases hs with ⟨rfl, hfilled⟩ | ⟨hs, hopen⟩
  · have hstack : h'.stack = h.stack := by rw [ht.rest]
    refine ⟨hv₁, fun i => Sub.changes_of_tended (ht.tended i), ?_, ⟨hstack, ?_⟩, fun i => ?_,
      fun i => (hkeep i).2.2.1, fun i => (hkeep i).2.2.2.2.1, ?_, fun _ => hpend,
      fun _ i hc hq => ?_⟩
    · rw [ht.rest]
      exact ⟨rfl, rfl⟩
    · rw [ht.rest]
    · rw [sending, sending, hstack, (hkeep i).2.1]
    · rw [ht.rest]
    · exact Or.inl ⟨ht.open_of_open hc, hfilled i hq⟩
  · have hsubs : h'.subs = h₁.subs := by rw [hs.rest]
    have hstack : h'.stack = h.stack := by rw [hs.rest, ht.rest]
    refine ⟨hv₁.schedules hs (hclosed.trans hopen), fun i => ?_, ?_, ⟨hstack, ?_⟩, fun i => ?_,
      fun i => ?_, fun i => ?_, ?_, fun _ hp => hs.pending (hpend hp),
      fun hb i _ _ => Or.inr ?_⟩
    · rw [hsubs]
      exact Sub.changes_of_tended (ht.tended i)
    · rw [hs.rest, ht.rest]
      exact ⟨rfl, rfl⟩
    · rw [hs.rest, ht.rest]
    · rw [sending, sending, hstack, hsubs, (hkeep i).2.1]
    · rw [hsubs, (hkeep i).2.2.1]
    · rw [hsubs, (hkeep i).2.2.2.2.1]
    · rw [hs.rest, ht.rest]
    · have hb₁ : h₁.batch = true := by rw [ht.rest]; exact hb
      exact hs.batched hb₁ (hv₁.scheduled (hclosed.trans hopen))

theorem Calls.refl (hv : Valid h) : Calls h h :=
  .of_tends hv (Tends.refl h) (fun _ _ => rfl) (Or.inl ⟨rfl, fun _ hq => hq⟩)

theorem recordPublish_tends (h : Hub J) (topic : String) (m : Message J) (r : Bool) :
    Tends h (recordPublish h topic m r) ∧ (recordPublish h topic m r).subs = h.subs := by
  unfold recordPublish
  cases r <;> exact ⟨⟨rfl, fun _ => .refl, fun _ hi _ => hi⟩, rfl⟩

theorem publish_calls (hv : Valid h) {m : Message J} {r : Bool}
    {p : Option ℚ} {a : Bool} {x : Hub J × ℕ} (hp : publish h topic m r p a = .ok x) :
    Calls h x.1 := by
  obtain ⟨hrec, hrecsubs⟩ := recordPublish_tends h topic m r
  have hloop := foldl_rel Offers.refl Offers.trans (offer_offers m (p.getD 0))
    ((recordPublish h topic m r).topics topic) (recordPublish h topic m r, 0)
  unfold publish at hp
  split_ifs at hp with hclosed hprio
  · cases hp
    exact Calls.refl hv
  have hopen : h.closed = false := by simpa using hclosed
  have hunused : ∀ j, h.nextSub ≤ j →
      (((recordPublish h topic m r).topics topic).foldl (offer m (p.getD 0))
        (recordPublish h topic m r, 0)).1.subs j = h.subs j := by
    intro j hj
    rw [hloop.closed_same j (hrecsubs ▸ (hv.unused j hj).1), hrecsubs]
  -- what was only counted or retained
  have hcounted : ∀ c, Calls h { recordPublish h topic m r with counters := c } := by
    intro c
    refine .of_tends hv (hrec.counted c) (fun j _ => congrFun hrecsubs j)
      (Or.inl ⟨rfl, fun j hq => ?_⟩)
    exact hrecsubs ▸ hq
  simp only at hp
  split_ifs at hp with hbucket hlimit hqueued <;> cases hp
  · exact hcounted _
  · exact hcounted _
  · exact .of_tends hv (hrec.trans hloop.tends) hunused
      (Or.inr ⟨scheduleFlush_schedules _, hopen⟩)
  · refine .of_tends hv (hrec.trans hloop.tends) hunused (Or.inl ⟨rfl, fun j hq => ?_⟩)
    exact hrecsubs ▸ hloop.filled (by simpa using hqueued) j hq

/-- The hub with a new subscriber, before the retained messages are replayed. -/
theorem subscribe_cases {o : SubOptions} {n : ℕ}
    (hs : subscribe h topic o n = .ok h') : h.closed = false ∧ ∃ s₀ : Sub J, ∃ h₁ : Hub J,
    (∀ s, Sub.Change h.messagePriority s s₀) ∧ s₀.inFlight = 0 ∧ s₀.settling = 0 ∧ s₀.chained = 0 ∧
      s₀.queue = [] ∧ s₀.handed = [] ∧ 1 ≤ s₀.maxBatch ∧
      h₁ = { h.setSub h.nextSub s₀ with
        nextSub := h.nextSub + 1, subscribers := h.subscribers ++ [h.nextSub]
        topics := h₁.topics } ∧
      (h' = h₁ ∨ h' = scheduleFlush (replay h₁ h.nextSub topic (h₁.retained topic))) := by
  unfold subscribe at hs
  split_ifs at hs with hclosed htopic hmax hbatch hraw
  simp only at hs
  have hpos : 1 ≤ ⌊o.maxBatch⌋.toNat := by
    have hfloor : (1 : ℤ) ≤ ⌊o.maxBatch⌋ := Int.le_floor.mpr (by push_cast; exact not_lt.mp hbatch)
    omega
  split_ifs at hs with hdup hempty <;> cases hs
  · refine ⟨by simpa using hclosed, _, _, fun s => ?_, rfl, rfl, rfl, rfl, rfl, hpos, rfl,
      Or.inl rfl⟩
    exact Sub.Change.create s _ _ _ _ _ _ hpos
  · refine ⟨by simpa using hclosed, _, _, fun s => ?_, rfl, rfl, rfl, rfl, rfl, hpos, rfl,
      Or.inr rfl⟩
    exact Sub.Change.create s _ _ _ _ _ _ hpos

theorem subscribe_calls (hv : Valid h) {o : SubOptions} {n : ℕ}
    (hs : subscribe h topic o n = .ok h') : Calls h h' := by
  obtain ⟨hopen, s₀, h₁, hcreate, hin, hset, hch, hqueue, hhanded, hpos, hh₁, hh'⟩ :=
    subscribe_cases hs
  have hnew : h₁.subs h.nextSub = s₀ := by rw [hh₁]; simp [Hub.setSub]
  have hold : ∀ j ≠ h.nextSub, h₁.subs j = h.subs j := by
    intro j hj
    rw [hh₁]
    exact update_of_ne hj _ _
  have hstack : h₁.stack = h.stack := by rw [hh₁]; rfl
  have hunused := hv.unused h.nextSub le_rfl
  have hsending : ∀ i, sending h₁ i = sending h i := by
    intro i
    by_cases hi : i = h.nextSub
    · subst hi
      have hzero := hunused.2.2.1
      rw [sending] at hzero ⊢
      rw [hstack, hnew, hset, sending]
      omega
    · rw [sending, sending, hstack, hold i hi]
  have hv₁ : Valid h₁ := by
    refine ⟨fun i => ?_, fun i hi => ?_, fun i hc => ?_, fun hc => ?_, fun _ hf => ?_, fun i => ?_⟩
    · rw [hsending]
      by_cases hi : i = h.nextSub
      · rw [hi, hnew, hin, hunused.2.2.1]
        rfl
      · rw [hold i hi]
        exact hv.inFlight_eq i
    · have hlt : h.nextSub + 1 ≤ i := by rw [hh₁] at hi; exact hi
      rw [hold i (by omega), hsending]
      exact hv.unused i (by omega)
    · rw [hh₁]
      by_cases hi : i = h.nextSub
      · simp [hi]
      · rw [hold i hi] at hc
        exact List.mem_append_left _ (hv.listed i hc)
    · have hc' : h.closed = true := by rw [hh₁] at hc; exact hc
      rw [hopen] at hc'
      cases hc'
    · have hf' : h.flushScheduled = true := by rw [hh₁] at hf; exact hf
      have hpend := hv.scheduled hopen hf'
      rw [hh₁]
      exact hpend
    · by_cases hi : i = h.nextSub
      · rw [hi, hnew]
        exact hpos
      · rw [hold i hi]
        exact hv.maxBatch_pos i
  have hcalls : Calls h₁ h' := by
    rcases hh' with rfl | rfl
    · exact Calls.refl hv₁
    · have hone := replay_tends h₁ h.nextSub topic (h₁.retained topic)
      refine .of_tends hv₁ hone.tends (fun j hj => ?_)
        (Or.inr ⟨scheduleFlush_schedules _, by rw [hh₁]; exact hopen⟩)
      have hlt : h.nextSub + 1 ≤ j := by rw [hh₁] at hj; exact hj
      exact hone.others j (by omega)
  have hmp : h₁.messagePriority = h.messagePriority := by rw [hh₁]; rfl
  have hpend : Pending h ↔ Pending h₁ := by rw [hh₁]; exact Iff.rfl
  refine ⟨hcalls.valid, fun i => ?_, ?_, ?_, fun i => (hcalls.sending_eq i).trans (hsending i),
    fun i => ?_, fun i => ?_, ?_, fun hc hp => hcalls.pending hc (hpend.mp hp),
    fun hb i hc hq => ?_⟩
  · have htail := hmp ▸ hcalls.changes i
    by_cases hi : i = h.nextSub
    · rw [hi] at htail ⊢
      rw [hnew] at htail
      exact .head (hcreate _) htail
    · rw [hold i hi] at htail
      exact htail
  · rw [hcalls.mode.1, hcalls.mode.2, hh₁]
    exact ⟨rfl, rfl⟩
  · rw [hcalls.busy.1, hcalls.busy.2, hh₁]
    exact ⟨rfl, rfl⟩
  · rw [hcalls.chained_eq]
    by_cases hi : i = h.nextSub
    · rw [hi, hnew, hch, hunused.2.2.2.1]
    · rw [hold i hi]
  · rw [hcalls.handed_eq]
    by_cases hi : i = h.nextSub
    · rw [hi, hnew, hhanded, hunused.2.2.2.2]
    · rw [hold i hi]
  · rw [hcalls.frames_eq, hh₁]
    rfl
  · have hb₁ : h₁.batch = true := by rw [hh₁]; exact hb
    rcases hcalls.queued hb₁ i hc hq with ⟨hc₁, hq₁⟩ | hp
    · have hi : i ≠ h.nextSub := by
        intro hi
        rw [hi, hnew] at hq₁
        exact hq₁ hqueue
      rw [hold i hi] at hc₁ hq₁
      exact Or.inl ⟨hc₁, hq₁⟩
    · exact Or.inr hp

theorem detach_closed_same (h : Hub J) (i : ℕ) {j : ℕ} (hj : (h.subs j).closed = true) :
    (detach h i).subs j = h.subs j := by
  by_cases hji : j = i
  · subst hji
    simp [detach, hj]
  · exact (detach_trims h i).others j hji

theorem detach_filled (h : Hub J) (i j : ℕ) (hq : ((detach h i).subs j).queue ≠ []) :
    (h.subs j).queue ≠ [] := by
  by_cases hji : j = i
  · exact hji ▸ (detach_trims h i).filled (hji ▸ hq)
  · rwa [(detach_trims h i).others j hji] at hq

theorem unsubscribe_calls (hv : Valid h) (id : String) :
    Calls h (unsubscribe h id) := by
  unfold unsubscribe
  split
  · exact Calls.refl hv
  · rename_i i _
    exact .of_tends hv (detach_tends h i)
      (fun j hj => detach_closed_same h i (hv.unused j hj).1)
      (Or.inl ⟨rfl, detach_filled h i⟩)

/-- Detaching a list of subscribers: only their objects change, and each is closed. -/
theorem foldl_detach (l : List ℕ) : ∀ h : Hub J, Tends h (l.foldl detach h) ∧
    (∀ j, (h.subs j).closed = true → (l.foldl detach h).subs j = h.subs j) ∧
    ∀ i ∈ l, ((l.foldl detach h).subs i).closed = true := by
  induction l with
  | nil => exact fun h => ⟨Tends.refl h, fun _ _ => rfl, fun i hi => nomatch hi⟩
  | cons i l ih =>
    intro h
    obtain ⟨htends, hsame, hall⟩ := ih (detach h i)
    have hi : ((detach h i).subs i).closed = true := by
      simp only [detach]
      split
      · assumption
      · simp [Hub.setSub]
    refine ⟨(detach_tends h i).trans htends, fun j hj => ?_, fun j hj => ?_⟩
    · have hdet := detach_closed_same h i hj
      rw [List.foldl_cons, hsame j (hdet ▸ hj), hdet]
    · rcases List.mem_cons.mp hj with rfl | hj
      · rw [List.foldl_cons, hsame j hi]
        exact hi
      · exact hall j hj

theorem close_calls (hv : Valid h) : Calls h (close h) := by
  unfold close
  split
  · exact Calls.refl hv
  obtain ⟨htends, hsame, hall⟩ :=
    foldl_detach h.subscribers { h with closed := true, flushTimer := false }
  generalize h.subscribers.foldl detach { h with closed := true, flushTimer := false } = h₁ at *
  have hkeep := fun i => Sub.tended_keeps (htends.tended i)
  have hshut : ∀ i, (h₁.subs i).closed = true := by
    intro i
    cases hc : (h.subs i).closed with
    | true => exact (hkeep i).2.2.2.2.2 hc
    | false => exact hall i (hv.listed i hc)
  have hstack : h₁.stack = h.stack := by rw [htends.rest]
  have hnext : h₁.nextSub = h.nextSub := by rw [htends.rest]
  have hclosed : h₁.closed = true := by rw [htends.rest]
  have hsending : ∀ i, h₁.stack.countP (·.sendsTo i) + (h₁.subs i).settling = sending h i := by
    intro i
    rw [hstack, (hkeep i).2.1, sending]
  refine ⟨⟨fun i => ?_, fun i hi => ?_, fun i hc => ?_, fun _ => hshut, fun hc => ?_, fun i => ?_⟩,
    fun i => Sub.changes_of_tended (htends.tended i), ?_, ⟨hstack, ?_⟩, hsending,
    fun i => (hkeep i).2.2.1, fun i => (hkeep i).2.2.2.2.1, ?_, fun hc => ?_, fun _ i hc => ?_⟩
  · rw [sending]
    show (h₁.subs i).inFlight = ((h₁.stack.countP (·.sendsTo i) + (h₁.subs i).settling : ℕ) : ℤ)
    rw [hsending, (hkeep i).1]
    exact hv.inFlight_eq i
  · have hi' : h.nextSub ≤ i := hnext ▸ hi
    obtain ⟨hc, hq, hzero, hch, hhanded⟩ := hv.unused i hi'
    have hsub : h₁.subs i = h.subs i := hsame i hc
    show (h₁.subs i).closed = true ∧ (h₁.subs i).queue = [] ∧ _ ∧ (h₁.subs i).chained = 0 ∧
      (h₁.subs i).handed = []
    rw [hsub]
    exact ⟨hc, hq, (hsending i).trans hzero, hch, hhanded⟩
  · have hc : (h₁.subs i).closed = false := hc
    rw [hshut i] at hc
    cases hc
  · have hc : h₁.closed = false := hc
    rw [hclosed] at hc
    cases hc
  · show 1 ≤ (h₁.subs i).maxBatch
    rw [(hkeep i).2.2.2.1]
    exact hv.maxBatch_pos i
  · show h₁.messagePriority = _ ∧ h₁.batch = _
    rw [htends.rest]
    exact ⟨rfl, rfl⟩
  · show h₁.waiting = _
    rw [htends.rest]
  · show h₁.frames = _
    rw [htends.rest]
  · have hc : h₁.closed = false := hc
    rw [hclosed] at hc
    cases hc
  · have hc : (h₁.subs i).closed = false := hc
    rw [hshut i] at hc
    cases hc

/-! ## Every other event -/

/-- The invariant across an event that moves one subscriber's sends along. -/
theorem Valid.moved (hv : Valid h)
    (hrest : h'.nextSub = h.nextSub ∧ h'.subscribers = h.subscribers ∧ h'.closed = h.closed)
    (hsub : ∀ i, (h'.subs i).closed = (h.subs i).closed ∧
      (h'.subs i).maxBatch = (h.subs i).maxBatch ∧
      ((h.subs i).queue = [] → (h'.subs i).queue = [] ∧ (h'.subs i).handed = (h.subs i).handed))
    (hflight : ∀ i, (h'.subs i).inFlight - sending h' i = (h.subs i).inFlight - sending h i)
    (hidle : ∀ i, sending h i = 0 → (h.subs i).queue = [] → (h.subs i).chained = 0 →
      sending h' i = 0 ∧ (h'.subs i).chained = 0)
    (hsched : h'.flushScheduled = true →
      h.flushScheduled = true ∧ (Pending h → Pending h')) : Valid h' := by
  refine ⟨fun i => ?_, fun i hi => ?_, fun i hc => ?_, fun hc i => ?_, fun hc hf => ?_, fun i => ?_⟩
  · have hold := hv.inFlight_eq i
    have hsame := hflight i
    omega
  · rw [hrest.1] at hi
    obtain ⟨hc, hq, hzero, hch, hhanded⟩ := hv.unused i hi
    obtain ⟨hq', hhanded'⟩ := (hsub i).2.2 hq
    obtain ⟨hzero', hch'⟩ := hidle i hzero hq hch
    exact ⟨(hsub i).1.trans hc, hq', hzero', hch', hhanded'.trans hhanded⟩
  · rw [hrest.2.1]
    exact hv.listed i ((hsub i).1 ▸ hc)
  · rw [hrest.2.2] at hc
    exact (hsub i).1.trans (hv.shut hc i)
  · obtain ⟨hf', hpend⟩ := hsched hf
    exact hpend (hv.scheduled (hrest.2.2 ▸ hc) hf')
  · rw [(hsub i).2.1]
    exact hv.maxBatch_pos i

/-- The invariant across an event that touches no subscriber object and no call of
`send`. -/
theorem Valid.same (hv : Valid h) (hsubs : h'.subs = h.subs)
    (hrest : h'.nextSub = h.nextSub ∧ h'.subscribers = h.subscribers ∧ h'.closed = h.closed)
    (hstack : ∀ i, h'.stack.countP (·.sendsTo i) = h.stack.countP (·.sendsTo i))
    (hsched : h'.flushScheduled = true →
      h.flushScheduled = true ∧ (Pending h → Pending h')) : Valid h' := by
  have hsending : ∀ i, sending h' i = sending h i := by
    intro i
    rw [sending, sending, hsubs, hstack]
  apply hv.moved hrest
  · intro i
    rw [hsubs]
    exact ⟨rfl, rfl, fun hq => ⟨hq, rfl⟩⟩
  · intro i
    rw [hsubs, hsending]
  · intro i hzero _ hch
    rw [hsubs, hsending]
    exact ⟨hzero, hch⟩
  · exact hsched

/-- A pass of `_drainSubscriberFully`, less its flush. -/
def awaits (h : Hub J) (i : ℕ) : Hub J :=
  if (h.subs i).closed || ((h.subs i).queue.isEmpty && decide ((h.subs i).inFlight ≤ 0)) then h
  else { h with waiting := i :: h.waiting }

variable [DecidableEq J] (T : JsonText (List J))

def prepared (h : Hub J) (e : Event J) : Hub J :=
  match e with
  | .turn =>
    match h.stack with
    | .drain (_ :: rest) :: stack => { h with stack := .drain rest :: stack }
    | .flushAll (i :: rest) :: stack => awaits { h with stack := .flushAll rest :: stack } i
    | .drain [] :: stack | .flushAll [] :: stack => { h with stack }
    | _ => h
  | .handled =>
    match h.stack with
    | .handlers _ :: stack => { h with stack }
    | _ => h
  | .resume i =>
    if h.stack.isEmpty && h.waiting.contains i then awaits { h with waiting := h.waiting.erase i } i
    else h
  | e => step T h e

/-- The event moves a loop, a round of handlers or a pending flush on. -/
def Event.Continues : Event J → Prop
  | .turn | .handled | .resume _ => True
  | _ => False

omit [DecidableEq J] in
theorem awaits_frame (h : Hub J) (i : ℕ) : ∃ waiting, awaits h i = { h with waiting } := by
  unfold awaits
  split
  · exact ⟨h.waiting, rfl⟩
  · exact ⟨i :: h.waiting, rfl⟩

theorem prepared_continues (h : Hub J) {e : Event J} (he : e.Continues) : ∃ stack waiting,
    prepared T h e = { h with stack, waiting } ∧
      ∀ j, stack.countP (·.sendsTo j) = h.stack.countP (·.sendsTo j) := by
  cases e with
  | turn =>
    simp only [prepared]
    split
    · next i rest stack hs => exact ⟨.drain rest :: stack, h.waiting, rfl, fun j => by rw [hs]; rfl⟩
    · next i rest stack hs =>
      obtain ⟨waiting, hw⟩ := awaits_frame { h with stack := .flushAll rest :: stack } i
      exact ⟨.flushAll rest :: stack, waiting, hw, fun j => by rw [hs]; rfl⟩
    · next stack hs => exact ⟨stack, h.waiting, rfl, fun j => by rw [hs]; rfl⟩
    · next stack hs => exact ⟨stack, h.waiting, rfl, fun j => by rw [hs]; rfl⟩
    · exact ⟨h.stack, h.waiting, rfl, fun _ => rfl⟩
  | handled =>
    simp only [prepared]
    split
    · next i stack hs => exact ⟨stack, h.waiting, rfl, fun j => by rw [hs]; rfl⟩
    · exact ⟨h.stack, h.waiting, rfl, fun _ => rfl⟩
  | resume i =>
    simp only [prepared]
    split
    · obtain ⟨waiting, hw⟩ := awaits_frame { h with waiting := h.waiting.erase i } i
      exact ⟨h.stack, waiting, hw, fun _ => rfl⟩
    · exact ⟨h.stack, h.waiting, rfl, fun _ => rfl⟩
  | _ => exact he.elim

omit [DecidableEq J] in
theorem continues_of_flushed {e : Event J} (hf : i ∈ flushed h e) : e.Continues := by
  cases e with
  | turn | handled | resume k => trivial
  | _ => cases hf

theorem drainSubscriberFully_eq (h : Hub J) (i : ℕ) :
    drainSubscriberFully T h i =
      if drainsNow h i then flushSubscriber T (awaits h i) i else awaits h i := by
  simp only [drainSubscriberFully, awaits, drainsNow]
  split_ifs <;> grind

theorem step_eq (h : Hub J) (e : Event J) :
    step T h e = (flushed h e).elim (prepared T h e) (flushSubscriber T (prepared T h e)) := by
  cases e with
  | turn =>
    simp only [step, flushed, turn, prepared]
    cases h.stack with
    | nil => rfl
    | cons a stack =>
      cases a with
      | drain rest =>
        cases rest with
        | nil => rfl
        | cons i rest =>
          simp only
          split <;> rfl
      | flushAll rest =>
        cases rest with
        | nil => rfl
        | cons i rest =>
          simp only [drainSubscriberFully_eq]
          show (if drainsNow h i then _ else _) = _
          cases drainsNow h i <;> rfl
      | send i bytes | handlers i => rfl
  | handled =>
    simp only [step, flushed, prepared]
    cases h.stack with
    | nil => rfl
    | cons a stack =>
      cases a with
      | handlers i =>
        simp only [handled]
        split <;> rfl
      | _ => rfl
  | resume i =>
    simp only [step, flushed, prepared]
    cases hw : h.stack.isEmpty && h.waiting.contains i with
    | false => rfl
    | true =>
      simp only [if_true, Bool.true_and, drainSubscriberFully_eq]
      show (if drainsNow h i then _ else _) = _
      cases drainsNow h i <;> rfl
  | _ => rfl

/-- A flush of an empty queue does nothing. Else the batch is spliced, and lost when
it cannot be encoded, or handed to `send`. -/
theorem flushSubscriber_cases (h : Hub J) (i : ℕ) :
    (nextBatch h i = [] ∧ flushSubscriber T h i = h) ∨
    (nextBatch h i ≠ [] ∧ encodeBatch T h.objects h.frames (nextBatch h i) = none ∧ ∃ c,
      flushSubscriber T h i =
        { h.setSub i { h.subs i with
            queue := (h.subs i).queue.drop (h.subs i).maxBatch
            dropped := (h.subs i).dropped + (nextBatch h i).length } with counters := c }) ∨
    (nextBatch h i ≠ [] ∧ encodeBatch T h.objects h.frames (nextBatch h i) ≠ none ∧ ∃ c f bytes,
      flushSubscriber T h i =
        { h.setSub i { h.subs i with
            queue := (h.subs i).queue.drop (h.subs i).maxBatch
            inFlight := (h.subs i).inFlight + 1
            handed := (h.subs i).handed ++ (h.subs i).queue.take (h.subs i).maxBatch } with
          counters := c, frames := f, stack := .send i bytes :: h.stack }) := by
  by_cases hb : nextBatch h i = []
  · refine Or.inl ⟨hb, ?_⟩
    simp [flushSubscriber, hb]
  · have hne : (nextBatch h i).isEmpty = false := by simpa using hb
    cases henc : encodeBatch T h.objects h.frames (nextBatch h i) with
    | none =>
      refine Or.inr (Or.inl ⟨hb, rfl, ?_⟩)
      simp [flushSubscriber, hne, henc, countDropped, Hub.setSub]
    | some x =>
      refine Or.inr (Or.inr ⟨hb, by simp, ?_⟩)
      simp [flushSubscriber, hne, henc]

omit [DecidableEq J] in
theorem setSub_sub (h : Hub J) (i : ℕ) (s : Sub J) (j : ℕ) :
    (h.setSub i s).subs j = if j = i then s else h.subs j := by
  by_cases hji : j = i
  · subst hji
    simp [Hub.setSub]
  · simp [Hub.setSub, hji]

structure Readies (h h' : Hub J) : Prop where
  valid : Valid h'
  changes : ∀ i, ReflTransGen (Sub.Change h.messagePriority) (h.subs i) (h'.subs i)
  mode : h'.messagePriority = h.messagePriority ∧ h'.batch = h.batch
  sending_le : ∀ i, sending h' i ≤ sending h i
  handed_eq : ∀ i, (h'.subs i).handed = (h.subs i).handed
  frames_eq : h'.frames = h.frames

section
omit [DecidableEq J]

theorem Readies.of_calls (hc : Calls h h') : Readies h h' :=
  ⟨hc.valid, hc.changes, hc.mode, fun i => (hc.sending_eq i).le, hc.handed_eq, hc.frames_eq⟩

/-- Only the schedule and the loops on the stack change. -/
theorem Readies.of_same (hv : Valid h) (hsubs : h'.subs = h.subs)
    (hrest : h'.nextSub = h.nextSub ∧ h'.subscribers = h.subscribers ∧ h'.closed = h.closed)
    (hmode : h'.messagePriority = h.messagePriority ∧ h'.batch = h.batch ∧ h'.frames = h.frames)
    (hstack : ∀ i, h'.stack.countP (·.sendsTo i) = h.stack.countP (·.sendsTo i))
    (hsched : h'.flushScheduled = true →
      h.flushScheduled = true ∧ (Pending h → Pending h')) : Readies h h' := by
  refine ⟨hv.same hsubs hrest hstack hsched, fun i => ?_, ⟨hmode.1, hmode.2.1⟩, fun i => ?_,
    fun i => ?_, hmode.2.2⟩
  · rw [hsubs]
  · rw [sending, sending, hsubs, hstack]
  · rw [hsubs]

variable {stack : List Activity} {c : Counters} {frames : Frames J}

theorem sending_setSub (hother : ∀ j ≠ i, stack.countP (·.sendsTo j) = h.stack.countP (·.sendsTo j))
    (j : ℕ) : sending { h.setSub i s with stack, counters := c, frames } j =
      if j = i then stack.countP (·.sendsTo i) + s.settling else sending h j := by
  rw [sending]
  show stack.countP (·.sendsTo j) + ((h.setSub i s).subs j).settling = _
  rw [setSub_sub]
  split_ifs with hji
  · rw [hji]
  · rw [hother j hji, sending]

theorem changes_setSub {b : Bool} (hchange : Sub.Change b (h.subs i) s) (j : ℕ) :
    ReflTransGen (Sub.Change b) (h.subs j) ((h.setSub i s).subs j) := by
  rw [setSub_sub]
  split_ifs with hji
  · rw [hji]
    exact .single hchange
  · exact .refl

/-- One subscriber object changes, and the stack. -/
theorem Valid.setSub (hv : Valid h)
    (hsub : s.closed = (h.subs i).closed ∧ s.maxBatch = (h.subs i).maxBatch ∧
      ((h.subs i).queue = [] → s.queue = [] ∧ s.handed = (h.subs i).handed))
    (hother : ∀ j ≠ i, stack.countP (·.sendsTo j) = h.stack.countP (·.sendsTo j))
    (hflight : s.inFlight - (stack.countP (·.sendsTo i) + s.settling : ℕ) =
      (h.subs i).inFlight - sending h i)
    (hidle : sending h i = 0 → (h.subs i).queue = [] → (h.subs i).chained = 0 →
      stack.countP (·.sendsTo i) + s.settling = 0 ∧ s.chained = 0) :
    Valid { h.setSub i s with stack, counters := c, frames } := by
  refine hv.moved ⟨rfl, rfl, rfl⟩ ?_ ?_ ?_ ?_
  · intro j
    show ((h.setSub i s).subs j).closed = _ ∧ ((h.setSub i s).subs j).maxBatch = _ ∧
      (_ → ((h.setSub i s).subs j).queue = [] ∧ ((h.setSub i s).subs j).handed = _)
    rw [setSub_sub]
    split_ifs with hji
    · rw [hji]
      exact hsub
    · exact ⟨rfl, rfl, fun hq => ⟨hq, rfl⟩⟩
  · intro j
    rw [sending_setSub hother]
    show ((h.setSub i s).subs j).inFlight - _ = _
    rw [setSub_sub]
    split_ifs with hji
    · rw [hji]
      exact hflight
    · rfl
  · intro j hzero hq hch
    rw [sending_setSub hother]
    show _ ∧ ((h.setSub i s).subs j).chained = 0
    rw [setSub_sub]
    split_ifs with hji
    · subst hji
      exact hidle hzero hq hch
    · exact ⟨hzero, hch⟩
  · exact fun hf => ⟨hf, fun hp => hp⟩

theorem Readies.of_setSub (hv : Valid h) (stack : List Activity)
    (c : Counters) (hchange : Sub.Change h.messagePriority (h.subs i) s)
    (hsub : s.closed = (h.subs i).closed ∧ s.maxBatch = (h.subs i).maxBatch ∧
      s.queue = (h.subs i).queue ∧ s.handed = (h.subs i).handed)
    (hother : ∀ j ≠ i, stack.countP (·.sendsTo j) = h.stack.countP (·.sendsTo j))
    (hflight : s.inFlight - (stack.countP (·.sendsTo i) + s.settling : ℕ) =
      (h.subs i).inFlight - sending h i)
    (hle : stack.countP (·.sendsTo i) + s.settling ≤ sending h i)
    (hidle : sending h i = 0 → (h.subs i).chained = 0 → s.chained = 0) :
    Readies h { h.setSub i s with stack, counters := c } := by
  obtain ⟨hclosed, hmax, hqueue, hhanded⟩ := hsub
  refine ⟨hv.setSub ⟨hclosed, hmax, fun hq => ⟨hqueue.trans hq, hhanded⟩⟩ hother hflight
    fun hzero _ hch => ⟨by omega, hidle hzero hch⟩, changes_setSub hchange, ⟨rfl, rfl⟩, fun j => ?_,
    fun j => ?_, rfl⟩
  · refine (sending_setSub hother j).trans_le ?_
    split_ifs with hji
    · rw [hji]
      exact hle
    · exact le_rfl
  · show ((h.setSub i s).subs j).handed = _
    rw [setSub_sub]
    split_ifs with hji
    · rw [hji]
      exact hhanded
    · rfl

end

theorem subscribe_step (hv : Valid h) (topic : String) (o : SubOptions) (n : ℕ) :
    Calls h (step T h (.subscribe topic o n)) := by
  show Calls h (if outside h then _ else h)
  split
  · cases hs : subscribe h topic o n with
    | error e => exact .refl hv
    | ok h' => exact subscribe_calls hv hs
  · exact .refl hv

theorem unsubscribe_step (hv : Valid h) (id : String) : Calls h (step T h (.unsubscribe id)) := by
  show Calls h (if outside h then _ else h)
  split
  · exact unsubscribe_calls hv id
  · exact .refl hv

theorem publish_step (hv : Valid h) (topic : String) (m : Message J) (r : Bool) (p : Option ℚ) (a : Bool) :
    Calls h (step T h (.publish topic m r p a)) := by
  show Calls h (if outside h then _ else h)
  split
  · cases hp : publish h topic m r p a with
    | error e => exact .refl hv
    | ok x => exact publish_calls hv hp
  · exact .refl hv

theorem close_step (hv : Valid h) : Calls h (step T h .close) := by
  show Calls h (if outside h then _ else h)
  split
  · exact close_calls hv
  · exact .refl hv

theorem prepared_readies (hv : Valid h) (e : Event J) : Readies h (prepared T h e) := by
  have hrefl : Readies h h := .of_calls (Calls.refl hv)
  by_cases he : e.Continues
  · obtain ⟨stack, waiting, heq, hcount⟩ := prepared_continues T h he
    rw [heq]
    exact .of_same hv rfl ⟨rfl, rfl, rfl⟩ ⟨rfl, rfl, rfl⟩ hcount fun hf => ⟨hf, fun hp => hp⟩
  cases e with
  | turn | handled | resume k => exact absurd trivial he
  | subscribe topic o n => exact .of_calls (subscribe_step T hv topic o n)
  | unsubscribe id => exact .of_calls (unsubscribe_step T hv id)
  | publish topic m r p a => exact .of_calls (publish_step T hv topic m r p a)
  | close => exact .of_calls (close_step T hv)
  | mutate ref value =>
    show Readies h (if outside h then _ else h)
    split
    · exact .of_same hv rfl ⟨rfl, rfl, rfl⟩ ⟨rfl, rfl, rfl⟩ (fun _ => rfl) fun hf => ⟨hf, fun hp => hp⟩
    · exact hrefl
  | flush =>
    show Readies h (if outside h then _ else h)
    split
    · exact .of_same hv rfl ⟨rfl, rfl, rfl⟩ ⟨rfl, rfl, rfl⟩ (fun _ => rfl) fun hf => nomatch hf
    · exact hrefl
  | timer | microtask =>
    show Readies h (if _ then drain _ else h)
    split
    · exact .of_same hv rfl ⟨rfl, rfl, rfl⟩ ⟨rfl, rfl, rfl⟩ (fun _ => rfl) fun hf => nomatch hf
    · exact hrefl
  | sendReturned =>
    simp only [prepared, step]
    split
    · rename_i i bytes stack hs
      have hcount := countP_stack hs
      refine .of_setSub hv stack _ (Sub.Change.returned _ bytes) ⟨rfl, rfl, rfl, rfl⟩
        (fun j hj => by rw [hcount, if_neg hj]; rfl) ?_ ?_ fun _ hch => hch
      · rw [sending, hcount, if_pos rfl]
        push_cast
        omega
      · rw [sending, hcount, if_pos rfl]
        show stack.countP (·.sendsTo i) + ((h.subs i).settling + 1) ≤ _
        omega
    · exact hrefl
  | sendThrew =>
    simp only [prepared, step]
    split
    · rename_i i bytes stack hs
      have hcount := countP_stack hs
      refine .of_setSub hv stack h.counters (Sub.Change.threw _)
        ⟨rfl, rfl, rfl, rfl⟩
        (fun j hj => by rw [hcount, if_neg hj]; rfl) ?_ ?_ fun _ hch => hch
      · rw [sending, hcount, if_pos rfl]
        push_cast
        omega
      · rw [sending, hcount, if_pos rfl]
        show stack.countP (·.sendsTo i) + (h.subs i).settling ≤ _
        omega
    · exact hrefl
  | settled i =>
    show Readies h (if h.stack.isEmpty then settled h i else h)
    split
    · simp only [settled]
      split
      · exact hrefl
      · rename_i hne
        refine .of_setSub hv h.stack h.counters (Sub.Change.settled _)
          ⟨rfl, rfl, rfl, rfl⟩ (fun _ _ => rfl) ?_ ?_ ?_
        · rw [sending]
          show (h.subs i).inFlight - 1 - ((_ + ((h.subs i).settling - 1) : ℕ) : ℤ) = _
          omega
        · rw [sending]
          show _ + ((h.subs i).settling - 1) ≤ _
          omega
        · rw [sending]
          intro hzero
          omega
    · exact hrefl
  | chain i =>
    show Readies h (if _ then _ else h)
    split
    · rename_i hguard
      obtain ⟨hs, hpos⟩ := Bool.and_eq_true_iff.mp hguard
      have hs : h.stack = [] := by simpa using hs
      have hpos : 0 < (h.subs i).chained := by simpa using hpos
      refine .of_setSub hv [.handlers i] h.counters (Sub.Change.handled _)
        ⟨rfl, rfl, rfl, rfl⟩ (fun _ _ => by rw [hs]; rfl) ?_ ?_ fun _ hch => ?_
      · rw [sending, hs]
        rfl
      · rw [sending, hs]
        exact le_rfl
      · omega
    · exact hrefl

omit [DecidableEq J] in
theorem nextBatch_eq_nil (hv : Valid h) (i : ℕ) :
    nextBatch h i = [] ↔ (h.subs i).queue = [] := by
  have hpos := hv.maxBatch_pos i
  unfold nextBatch
  cases (h.subs i).queue with
  | nil => simp
  | cons x xs =>
    obtain ⟨n, hn⟩ : ∃ n, (h.subs i).maxBatch = n + 1 := ⟨(h.subs i).maxBatch - 1, by omega⟩
    simp [hn]

/-- A flush of `i` now calls `send`. -/
def Sends (h : Hub J) (i : ℕ) : Prop :=
  nextBatch h i ≠ [] ∧ encodeBatch T h.objects h.frames (nextBatch h i) ≠ none

instance (h : Hub J) (i : ℕ) : Decidable (Sends T h i) :=
  match hb : nextBatch h i, he : encodeBatch T h.objects h.frames (nextBatch h i) with
  | [], _ => isFalse fun hs => hs.1 hb
  | _ :: _, none => isFalse fun hs => hs.2 he
  | _ :: _, some _ => isTrue ⟨by simp [hb], by simp [he]⟩

/-- What a flush of `i` keeps. -/
structure Flushes (h : Hub J) (i : ℕ) (h' : Hub J) : Prop where
  valid : Valid h'
  changes : ∀ j, ReflTransGen (Sub.Change h.messagePriority) (h.subs j) (h'.subs j)
  mode : h'.messagePriority = h.messagePriority ∧ h'.batch = h.batch
  sending_eq : ∀ j, sending h' j = sending h j + if j = i ∧ Sends T h i then 1 else 0
  handed_eq : ∀ j, (h'.subs j).handed = (h.subs j).handed ++
    if j = i ∧ Sends T h i then (h.subs i).queue.take (h.subs i).maxBatch else []

theorem flushSubscriber_flushes (hv : Valid h) (i : ℕ) :
    Flushes T h i (flushSubscriber T h i) := by
  rcases flushSubscriber_cases T h i with ⟨hb, heq⟩ | ⟨hb, henc, c, heq⟩ | ⟨hb, henc, c, f, n, heq⟩
  · rw [heq]
    have hnot : ∀ j, ¬ (j = i ∧ Sends T h i) := fun j hs => hs.2.1 hb
    refine ⟨hv, fun _ => .refl, ⟨rfl, rfl⟩, fun j => ?_, fun j => ?_⟩
    · rw [if_neg (hnot j), Nat.add_zero]
    · rw [if_neg (hnot j), List.append_nil]
  · rw [heq]
    have hnot : ¬ Sends T h i := fun hs => hs.2 henc
    -- the batch is lost: its subscriber's queue shrinks, and no send starts
    refine ⟨hv.setSub ⟨rfl, rfl, fun hq => ⟨?_, rfl⟩⟩ (fun _ _ => rfl) rfl fun hzero _ hch => ⟨hzero, hch⟩,
      changes_setSub (Sub.Change.lose _ _), ⟨rfl, rfl⟩, fun j => ?_, fun j => ?_⟩
    · simp [hq]
    · rw [if_neg fun hs => hnot hs.2, Nat.add_zero]
      refine (sending_setSub (fun _ _ => rfl) j).trans ?_
      split_ifs with hji
      · rw [hji]
        rfl
      · rfl
    · rw [if_neg fun hs => hnot hs.2, List.append_nil]
      show ((h.setSub i _).subs j).handed = _
      rw [setSub_sub]
      split_ifs with hji
      · rw [hji]
      · rfl
  · rw [heq]
    have hsends : Sends T h i := ⟨hb, henc⟩
    have hne : (h.subs i).queue ≠ [] := fun hq => hb ((nextBatch_eq_nil hv i).mpr hq)
    have hother : ∀ j ≠ i, (Activity.send i n :: h.stack).countP (·.sendsTo j) =
        h.stack.countP (·.sendsTo j) := by
      intro j hji
      rw [countP_send, if_neg hji, Nat.add_zero]
    have hcount : (Activity.send i n :: h.stack).countP (·.sendsTo i) + (h.subs i).settling =
        sending h i + 1 := by
      rw [countP_send, if_pos rfl, sending]
      omega
    refine ⟨hv.setSub ⟨rfl, rfl, fun hq => absurd hq hne⟩ hother ?_ fun _ hq => absurd hq hne,
      changes_setSub (Sub.Change.send _), ⟨rfl, rfl⟩, fun j => ?_, fun j => ?_⟩
    · rw [hcount]
      push_cast
      omega
    · refine (sending_setSub hother j).trans ?_
      by_cases hji : j = i
      · rw [if_pos hji, if_pos ⟨hji, hsends⟩, hji]
        exact hcount
      · rw [if_neg hji, if_neg fun hs => hji hs.1, Nat.add_zero]
    · show ((h.setSub i _).subs j).handed = _
      rw [setSub_sub]
      by_cases hji : j = i
      · rw [if_pos hji, if_pos ⟨hji, hsends⟩, hji]
      · rw [if_neg hji, if_neg fun hs => hji hs.1, List.append_nil]

/-- An event that flushes prepares it without touching the subscribers, the frames
or the heap. -/
theorem prepared_same {e : Event J} (hf : i ∈ flushed h e) :
    (prepared T h e).subs = h.subs ∧ (prepared T h e).objects = h.objects ∧
      (prepared T h e).frames = h.frames ∧ ∀ j, sending (prepared T h e) j = sending h j := by
  obtain ⟨stack, waiting, heq, hcount⟩ := prepared_continues T h (continues_of_flushed hf)
  rw [heq]
  exact ⟨rfl, rfl, rfl, fun j => congrArg (· + (h.subs j).settling) (hcount j)⟩

theorem sends_prepared {e : Event J} (hf : i ∈ flushed h e) :
    Sends T (prepared T h e) i ↔ Sends T h i := by
  obtain ⟨h1, h2, h3, -⟩ := prepared_same T hf
  unfold Sends nextBatch
  rw [h1, h2, h3]

theorem valid_step (hv : Valid h) (e : Event J) : Valid (step T h e) := by
  have hr := prepared_readies T hv e
  rw [step_eq]
  cases flushed h e with
  | none => exact hr.valid
  | some i => exact (flushSubscriber_flushes T hr.valid i).valid

theorem step_changes (hv : Valid h) (e : Event J) :
    (∀ i, ReflTransGen (Sub.Change h.messagePriority) (h.subs i) ((step T h e).subs i)) ∧
      (step T h e).messagePriority = h.messagePriority ∧ (step T h e).batch = h.batch := by
  have hr := prepared_readies T hv e
  rw [step_eq]
  cases flushed h e with
  | none => exact ⟨hr.changes, hr.mode⟩
  | some i =>
    have hf := flushSubscriber_flushes T hr.valid i
    refine ⟨fun j => (hr.changes j).trans ?_, hf.mode.1.trans hr.mode.1, hf.mode.2.trans hr.mode.2⟩
    exact hr.mode.1 ▸ hf.changes j

omit [DecidableEq J] in
theorem new_valid {codec : Codec J} {o : Options} {objects : ℕ → Option J}
    (hnew : newWith codec o objects = .ok h) : Valid h ∧ h.batch = o.batch ∧
      h.messagePriority = o.messagePriority ∧ (∀ i, (h.subs i).queue = []) ∧
      (∀ i, sending h i = 0) ∧
      ∀ i, (h.subs i).accepted = [] ∧ (h.subs i).handed = [] := by
  obtain ⟨n, -, hn⟩ := bind_eq_ok.mp hnew
  cases hn
  exact ⟨⟨fun _ => rfl, fun _ _ => ⟨rfl, rfl, rfl, rfl, rfl⟩, fun _ hc => (nomatch hc),
    fun hc => (nomatch hc), fun _ hf => (nomatch hf), fun _ => le_rfl⟩, rfl, rfl, fun _ => rfl,
    fun _ => rfl, fun _ => ⟨rfl, rfl⟩⟩

/-- **The rule for subscriber objects.** What holds of a new subscriber and is kept
by each change of one holds of every subscriber in every state of a run. -/
theorem subs_always {P : Sub J → Prop} (hv : Valid h) (hstart : ∀ i, P (h.subs i))
    (hchange : ∀ s s', Sub.Change h.messagePriority s s' → P s → P s') (es : List (Event J)) :
    Always (step T) (fun h => ∀ i, P (h.subs i)) h es := by
  have hkeep : ∀ {a b : Sub J}, ReflTransGen (Sub.Change h.messagePriority) a b → P a → P b := by
    intro a b hab ha
    induction hab with
    | refl => exact ha
    | tail _ hlast ih => exact hchange _ _ hlast ih
  have hrun : Always (step T) (fun h' : Hub J => Valid h' ∧ h'.messagePriority = h.messagePriority ∧
      ∀ i, P (h'.subs i)) h es := by
    refine always_of_step (fun s e hs => ?_) ⟨hv, rfl, hstart⟩ es
    obtain ⟨hvalid, hmp, hall⟩ := hs
    obtain ⟨hchanges, hmode, -⟩ := step_changes T hvalid e
    exact ⟨valid_step T hvalid e, hmode.trans hmp, fun i => hkeep (hmp ▸ hchanges i) (hall i)⟩
  exact hrun.mono fun s hs => hs.2.2

end

end PerformanceHelpers.RealtimeHub
