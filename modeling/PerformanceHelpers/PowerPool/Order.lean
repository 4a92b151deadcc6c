import PerformanceHelpers.PowerPool.Steps
import PerformanceHelpers.PowerPool.TaskQueue

/- The order tasks leave the queue of a `PowerPool` in (`src/helpers/powerPool.js`: the
   inline drain of `worker.onmessage`, and `_dispatchQueuedTasks`).

   A worker's reply takes by priority, aged or not. `_dispatchQueuedTasks` calls
   `shift()`, which is by priority only where the queue is a heap. The default
   priority of the options is not kept.

   What is proved:
     1. `takeTask_eq` — a drain takes the first of the greatest among the live items, by
        the priority it goes by (`storedPriority`).
     2. `takes_next_iff` — a drain takes the task it should from every queue exactly when
        the default priority is zero, and priorities do not age or it is a worker's
        reply; and so it does in every run. -/
namespace PerformanceHelpers.PowerPool

variable {V : Type} {W : World} {T : ObjectText V} {A : Allowed V} {c c' : Pool V}

def effectivePriority (config : Config) (now : ℚ) (item : QueueItem V) : ℚ :=
  item.origin.priority.getD config.priority +
    if 0 < config.priorityAgingMs then max 0 (now - item.enqueuedAt) / config.priorityAgingMs else 0

/-- The item is the first of the greatest effective priority among the live ones. -/
def IsNext (config : Config) (now : ℚ) (aborted : List ℕ) (queue : List (QueueItem V))
    (item : QueueItem V) : Prop :=
  ∃ pre post, queue.filter (·.live now aborted) = pre ++ item :: post ∧
    FirstBest (effectivePriority config now) pre item post

/-- What a drain takes from the queue is next, and it takes something if anything is live. -/
def TakesNext (drain : Drain) (c : Pool V) : Prop :=
  match (c.takeTask drain).2 with
  | none => c.queue.filter (·.live c.now c.aborted) = []
  | some item => IsNext c.toConfig c.now c.aborted c.queue item

def storedPriority (drain : Drain) (config : Config) (now : ℚ) (item : QueueItem V) : ℚ :=
  if config.priorityAgingMs ≤ 0 then item.itemPriority
  else
    match drain with
    | .inline => item.agedPriority config.priorityAgingMs now
    | .dispatch => 0

/-! ## What a drain takes -/

theorem takeBest_const {α : Type} (r : ℚ) (xs : List α) :
    takeBest (fun _ => r) xs = xs.head?.map fun x => (x, xs.tail) := by
  cases xs with
  | nil => rfl
  | cons x xs =>
    rw [show x :: xs = [] ++ x :: xs from rfl, FirstBest.takeBest_eq]
    · rfl
    · exact ⟨fun _ h => absurd h List.not_mem_nil, fun _ _ => le_rfl⟩

/-- Either drain takes the first of the greatest, by the priority it goes by. -/
theorem shiftOf_eq (drain : Drain) (c : Pool V) (q : List (QueueItem V)) :
    Pool.shiftOf drain c q = takeBest (storedPriority drain c.toConfig c.now) q := by
  unfold storedPriority
  by_cases haging : c.priorityAgingMs ≤ 0
  · have hshift : c.shift q = takeBest QueueItem.itemPriority q := by
      unfold Pool.shift
      rw [if_pos haging]
    simp only [if_pos haging]
    cases drain with
    | dispatch => exact hshift
    | inline =>
      rw [Pool.shiftOf]
      unfold Pool.shiftForReply
      rw [if_pos haging]
      exact hshift
  · simp only [if_neg haging]
    cases drain with
    | dispatch =>
      rw [Pool.shiftOf]
      unfold Pool.shift
      rw [if_neg haging, takeBest_const]
    | inline =>
      rw [Pool.shiftOf]
      unfold Pool.shiftForReply
      rw [if_neg haging]

/-- Among the live items the order is the same. -/
theorem FirstBest.filter {α : Type} {f : α → ℚ} {pre post : List α} {x : α} (h : FirstBest f pre x post)
    (live : α → Bool) : FirstBest f (pre.filter live) x (post.filter live) :=
  ⟨fun z hz => h.before z (List.mem_filter.mp hz).1, fun z hz => h.after z (List.mem_filter.mp hz).1⟩

theorem discard_judged (c : Pool V) (item : QueueItem V) :
    (c.discard item).queue = c.queue ∧ (c.discard item).now = c.now ∧
      (c.discard item).aborted = c.aborted ∧ (c.discard item).toConfig = c.toConfig ∧
      (c.discard item).takes = c.takes := by
  obtain ⟨p, s, ds, h⟩ := discard_frame c item
  rw [h]
  exact ⟨rfl, rfl, rfl, rfl, rfl⟩

/-- The loop of a drain takes the first of the greatest among the live items. -/
theorem takeLive_eq (drain : Drain) (n : ℕ) (c : Pool V) (hn : c.queue.length ≤ n) :
    (Pool.takeLive (Pool.shiftOf drain) n c).2 =
      (takeBest (storedPriority drain c.toConfig c.now) (c.queue.filter (·.live c.now c.aborted))).map
        (·.1) := by
  induction n generalizing c with
  | zero =>
    rw [List.length_eq_zero_iff.mp (Nat.le_zero.mp hn)]
    rfl
  | succ n ih =>
    rw [Pool.takeLive, shiftOf_eq]
    cases htaken : takeBest (storedPriority drain c.toConfig c.now) c.queue with
    | none =>
      rw [takeBest_eq_none.mp htaken]
      rfl
    | some p =>
      obtain ⟨item, rest⟩ := p
      obtain ⟨pre, post, hqueue, rfl, hbest⟩ := takeBest_eq_some_iff.mp htaken
      dsimp only
      cases hlive : item.live c.now c.aborted with
      | true =>
        rw [if_pos rfl, hqueue, List.filter_append, List.filter_cons_of_pos hlive,
          (hbest.filter _).takeBest_eq]
        rfl
      | false =>
        rw [if_neg Bool.false_ne_true]
        have hframe := discard_judged { c with queue := pre ++ post } item
        have hlen : (({ c with queue := pre ++ post } : Pool V).discard item).queue.length ≤ n := by
          rw [hframe.1]
          rw [hqueue] at hn
          simp only [List.length_append, List.length_cons] at hn ⊢
          omega
        have hdead : (pre ++ item :: post).filter (·.live c.now c.aborted) =
            (pre ++ post).filter (·.live c.now c.aborted) := by
          simp [List.filter_append, hlive]
        rw [ih _ hlen, hframe.1, hframe.2.1, hframe.2.2.1, hframe.2.2.2.1, hqueue, hdead]

theorem takeTask_eq (drain : Drain) (c : Pool V) :
    (c.takeTask drain).2 =
      (takeBest (storedPriority drain c.toConfig c.now) (c.queue.filter (·.live c.now c.aborted))).map
        (·.1) := by
  rw [← takeLive_eq drain c.queue.length c le_rfl]
  unfold Pool.takeTask
  dsimp only
  split
  · next h => rw [h]
  · next item h => rw [h]

/-- An item of a queue keeps the priority its post gave. -/
def Consistent (c : Pool V) : Prop := ∀ item ∈ c.queue, item.Kept

/-- Without a default, and where priorities do not age or it is a reply that takes, the two
priorities agree. -/
theorem stored_eq_effective {drain : Drain} {config : Config} (hdefault : config.priority = 0)
    (hdrain : config.priorityAgingMs ≤ 0 ∨ drain = .inline) {item : QueueItem V} (hkept : item.Kept)
    (now : ℚ) : storedPriority drain config now item = effectivePriority config now item := by
  unfold storedPriority effectivePriority
  rw [hdefault, ← hkept]
  by_cases haging : config.priorityAgingMs ≤ 0
  · rw [if_pos haging, if_neg (not_lt.mpr haging), add_zero]
  · rw [if_neg haging, if_pos (not_le.mp haging), hdrain.resolve_left haging]
    rfl

/-- What is the first of the greatest by one priority is so by another that agrees. -/
theorem FirstBest.congr {α : Type} {f g : α → ℚ} {pre post : List α} {x : α} (h : FirstBest f pre x post)
    (hfg : ∀ z ∈ pre ++ x :: post, f z = g z) : FirstBest g pre x post := by
  have hx := hfg x (List.mem_append_right _ List.mem_cons_self)
  constructor
  · intro z hz
    rw [← hx, ← hfg z (List.mem_append_left _ hz)]
    exact h.before z hz
  · intro z hz
    rw [← hx, ← hfg z (List.mem_append_right _ (List.mem_cons_of_mem _ hz))]
    exact h.after z hz

theorem takesNext {drain : Drain} (hdefault : c.priority = 0)
    (hdrain : c.priorityAgingMs ≤ 0 ∨ drain = .inline) (hc : Consistent c) : TakesNext drain c := by
  have htaken := takeTask_eq drain c
  unfold TakesNext
  cases hbest : takeBest (storedPriority drain c.toConfig c.now)
      (c.queue.filter (·.live c.now c.aborted)) with
  | none =>
    rw [hbest] at htaken
    rw [htaken]
    exact takeBest_eq_none.mp hbest
  | some p =>
    obtain ⟨item, rest⟩ := p
    rw [hbest] at htaken
    rw [htaken]
    obtain ⟨pre, post, hlive, -, hfirst⟩ := takeBest_eq_some_iff.mp hbest
    refine ⟨pre, post, hlive, hfirst.congr fun z hz => ?_⟩
    have hmem : z ∈ c.queue.filter (·.live c.now c.aborted) := hlive ▸ hz
    exact stored_eq_effective hdefault hdrain (hc z (List.mem_filter.mp hmem).1) c.now

def itemOf (priority : Option ℚ) : QueueItem V where
  message := .message (.scalar 0)
  transfer := none
  deferred := false
  enqueuedAt := 0
  priority
  origin := { message := .scalar 0, transfer := none, route := .post, priority }

theorem effective_itemOf (config : Config) (p : Option ℚ) :
    effectivePriority config 0 (itemOf p : QueueItem V) = p.getD config.priority := by
  simp [effectivePriority, itemOf]

theorem stored_itemOf_le {p p' : Option ℚ} (h : p.getD 0 ≤ p'.getD 0) (drain : Drain) (config : Config) :
    storedPriority drain config 0 (itemOf p : QueueItem V) ≤
      storedPriority drain config 0 (itemOf p' : QueueItem V) := by
  unfold storedPriority
  by_cases haging : config.priorityAgingMs ≤ 0
  · rw [if_pos haging, if_pos haging]
    exact h
  · rw [if_neg haging, if_neg haging]
    cases drain with
    | inline => simpa [QueueItem.agedPriority, itemOf] using h
    | dispatch => exact le_rfl

theorem not_takesNext {drain : Drain} {config : Config} {p p' : Option ℚ}
    (hstored : storedPriority drain config 0 (itemOf p' : QueueItem V) ≤
      storedPriority drain config 0 (itemOf p : QueueItem V))
    (heffective : p.getD config.priority < p'.getD config.priority) :
    ¬ TakesNext drain ({ toConfig := config, queue := [itemOf p, itemOf p'] } : Pool V) := by
  have hlive : [itemOf p, itemOf p'].filter (·.live 0 []) = ([itemOf p, itemOf p'] : List (QueueItem V)) := rfl
  have hfirst : takeBest (storedPriority drain config 0) [itemOf p, (itemOf p' : QueueItem V)] =
      some (itemOf p, [itemOf p']) := by
    refine takeBest_eq_some_iff.mpr ⟨[], [itemOf p'], rfl, rfl, fun _ h => absurd h List.not_mem_nil, ?_⟩
    intro z hz
    obtain rfl := List.mem_singleton.mp hz
    exact hstored
  have htaken := takeTask_eq drain ({ toConfig := config, queue := [itemOf p, itemOf p'] } : Pool V)
  dsimp only at htaken
  rw [hlive, hfirst] at htaken
  have hlt : effectivePriority config 0 (itemOf p : QueueItem V) <
      effectivePriority config 0 (itemOf p' : QueueItem V) := by
    rw [effective_itemOf, effective_itemOf]
    exact heffective
  unfold TakesNext
  rw [htaken]
  rintro ⟨pre, post, heq, hbest⟩
  dsimp only at heq hbest
  rw [hlive] at heq
  have hmem : (itemOf p' : QueueItem V) ∈ pre ++ itemOf p :: post := heq ▸ by simp
  rcases List.mem_append.mp hmem with hpre | hpost
  · -- nothing stands before the first item
    cases pre with
    | nil => exact absurd hpre List.not_mem_nil
    | cons x pre =>
      obtain ⟨rfl, -⟩ := List.cons.inj heq
      exact lt_irrefl _ (hbest.before _ List.mem_cons_self)
  · rcases List.mem_cons.mp hpost with hsame | hpost
    · rw [hsame] at hlt
      exact lt_irrefl _ hlt
    · exact not_le.mpr hlt (hbest.after _ hpost)

/-- A drain takes the next task from every queue exactly when the default priority is zero,
and priorities do not age or it is a worker's reply. -/
theorem takesNext_iff (config : Config) (drain : Drain) :
    (∀ c : Pool V, c.toConfig = config → Consistent c → TakesNext drain c) ↔
      config.priority = 0 ∧ (config.priorityAgingMs ≤ 0 ∨ drain = .inline) := by
  constructor
  · intro h
    have hpair (p p' : Option ℚ) : TakesNext drain
        ({ toConfig := config, queue := [itemOf p, itemOf p'] } : Pool V) := by
      refine h _ rfl fun item hitem => ?_
      rcases List.mem_cons.mp hitem with rfl | hitem
      · rfl
      · obtain rfl := List.mem_singleton.mp hitem
        rfl
    have hdefault : config.priority = 0 := by
      rcases lt_trichotomy config.priority 0 with hneg | hzero | hpos
      · refine absurd (hpair none (some (config.priority / 2))) (not_takesNext ?_ ?_)
        · apply stored_itemOf_le
          simp only [Option.getD_some, Option.getD_none]
          linarith
        · simp only [Option.getD_some, Option.getD_none]
          linarith
      · exact hzero
      · refine absurd (hpair (some (config.priority / 2)) none) (not_takesNext ?_ ?_)
        · apply stored_itemOf_le
          simp only [Option.getD_some, Option.getD_none]
          linarith
        · simp only [Option.getD_some, Option.getD_none]
          linarith
    refine ⟨hdefault, ?_⟩
    by_contra hno
    obtain ⟨haging, hdrain⟩ := not_or.mp hno
    have hdispatch : drain = .dispatch := by
      cases drain with
      | inline => exact absurd rfl hdrain
      | dispatch => rfl
    refine absurd (hpair (some 0) (some 1)) (not_takesNext ?_ ?_)
    · rw [hdispatch]
      unfold storedPriority
      rw [if_neg haging, if_neg haging]
    · norm_num
  · rintro ⟨hdefault, hdrain⟩ c rfl hc
    exact takesNext hdefault hdrain hc

/-! ## Runs -/

/-- What has been taken was next, where its drain can tell. -/
def Served (c : Pool V) : Prop :=
  ∀ t ∈ c.takes, c.priority = 0 → c.priorityAgingMs ≤ 0 ∨ t.drain = .inline →
    IsNext c.toConfig t.now t.aborted t.queue t.item

theorem takes_listenForAbort (c : Pool V) (signal : Option ℕ) (key : Option String) :
    (c.listenForAbort signal key).takes = c.takes := by
  unfold Pool.listenForAbort
  split
  · split
    · rw [cleanupPendingResponse_eq]
    · rfl
  · rfl

theorem takes_serve (c : Pool V) (drain : Drain) (id : ℕ) :
    (c.serve W T drain id).1.takes = c.takes ∨
      ∃ item, (c.takeTask drain).2 = some item ∧
        (c.serve W T drain id).1.takes = c.takes ++ [⟨drain, c.now, c.aborted, c.queue, item⟩] := by
  obtain ⟨c', hd, h⟩ := takeLive_spec (shifts_shiftOf drain) c.queue.length c
  have htakes : c'.takes = c.takes := by
    obtain ⟨q, p, s, ds, hframe⟩ := hd.frame
    rw [hframe]
  unfold Pool.serve Pool.takeTask
  rcases h with h | ⟨item, rest, -, -, h⟩
  · rw [h]
    exact Or.inl htakes
  · rw [h]
    refine Or.inr ⟨item, rfl, ?_⟩
    dsimp only
    unfold Pool.dispatchItem
    generalize htaken : ({ c' with
      queue := rest
      takes := c'.takes ++ [⟨drain, c.now, c.aborted, c.queue, item⟩] } : Pool V) = taken
    have hlog : taken.takes = c.takes ++ [⟨drain, c.now, c.aborted, c.queue, item⟩] := by
      rw [← htaken, ← htakes]
    cases haccepts : W.accepts taken.attempts with
    | true =>
      obtain ⟨wire, hdispatch⟩ := dispatchToWorker_of_accepts T haccepts id
        (taken.encodeFor T id item.toPrepared) item.correlationId item.signal true item.origin
      obtain ⟨ws, bs, bt, hrecord⟩ := recordPost_eq (taken.attempt W).1
        (taken.postTo id wire true item.origin) item.correlationId true
      rw [hdispatch]
      dsimp only
      rw [takes_listenForAbort, hrecord]
      exact hlog
    | false =>
      rw [dispatchToWorker_of_throws T haccepts]
      exact hlog

theorem Move.takes_cases (h : Move W T A c c') :
    c'.takes = c.takes ∨ ∃ drain item, (c.takeTask drain).2 = some item ∧
      c'.takes = c.takes ++ [⟨drain, c.now, c.aborted, c.queue, item⟩] := by
  rcases h.logs with h | ⟨p, key, busy, -, rfl⟩ | ⟨item, -, rfl⟩ | rfl | ⟨drain, id, rfl⟩ | rfl
  · exact Or.inl h.takes
  · obtain ⟨ws, bs, bt, h⟩ := recordPost_eq c p key busy
    rw [h]
    exact Or.inl rfl
  · exact Or.inl rfl
  · rcases evict_cases c with ⟨h, -⟩ | ⟨dropped, rest, pending, settled, -, h, -⟩ <;>
      (rw [h]; exact Or.inl rfl)
  · rcases takes_serve (W := W) (T := T) c drain id with h | ⟨item, htaken, h⟩
    · exact Or.inl h
    · exact Or.inr ⟨drain, item, htaken, h⟩
  · exact Or.inl rfl

/-- Whatever keeps the priority of its post may be queued. -/
def Allowed.kept (V : Type) : Allowed V where
  item := QueueItem.Kept
  request _ _ _ := True

theorem Moves.served (hA : ∀ item, A.item item → item.Kept) (h : Moves W T A c c') (hc : Consistent c)
    (hs : Served c) : Consistent c' ∧ Served c' := by
  induction h with
  | refl => exact ⟨hc, hs⟩
  | @tail d d' _ hstep ih =>
    obtain ⟨hd, hserved⟩ := ih
    constructor
    · intro item hitem
      rcases hstep.queue_cases with ⟨hqueue, -⟩ | ⟨item', hitem', hqueue, -⟩
      · exact hd item (hqueue.subset hitem)
      · rw [hqueue] at hitem
        rcases List.mem_append.mp hitem with hitem | hitem
        · exact hd item hitem
        · obtain rfl := List.mem_singleton.mp hitem
          exact hA _ hitem'.allowed
    · have hconfig := hstep.config
      intro t ht hdefault hdrain
      rw [hconfig]
      rw [show d'.priority = d'.toConfig.priority from rfl, hconfig] at hdefault
      rw [show d'.priorityAgingMs = d'.toConfig.priorityAgingMs from rfl, hconfig] at hdrain
      rcases hstep.takes_cases with h | ⟨drain, item, htaken, h⟩
      · exact hserved t (h ▸ ht) hdefault hdrain
      · rw [h] at ht
        rcases List.mem_append.mp ht with ht | ht
        · exact hserved t ht hdefault hdrain
        · obtain rfl := List.mem_singleton.mp ht
          have hnext := takesNext hdefault hdrain hd
          unfold TakesNext at hnext
          rw [htaken] at hnext
          exact hnext

/-- Every step takes what is next, where its drain can tell. -/
theorem served_step (hok : QueueOk c) (hc : Consistent c) (hs : Served c) (e : Event V) :
    Consistent (step W T c e) ∧ Served (step W T c e) := by
  have hmoves : Moves W T (Allowed.kept V) c (step W T c e) :=
    step_moves (fun _ h => h) (fun _ _ _ => trivial) (fun _ => trivial) hok.bounded e
  exact hmoves.served (fun _ h => h) hc hs

/-- The tasks of a pool leave its queue in their order. For each drain, it takes the next
task from every queue exactly when the options set no default priority (but zero), and
priorities do not age or it is a worker's reply; what has been taken in a run was next
under that condition; and the heap or the ring that holds the queue answers what is taken. -/
theorem takes_next_iff (config : Config) :
    (∀ drain : Drain, (∀ c : Pool V, c.toConfig = config → Consistent c → TakesNext drain c) ↔
      config.priority = 0 ∧ (config.priorityAgingMs ≤ 0 ∨ drain = .inline)) ∧
    (∀ (W : World) (T : ObjectText V) (minSize maxSize initial sequence : ℕ) (es : List (Event V)),
      Always (step W T) (fun c => c.toConfig = config ∧ Consistent c ∧ Served c)
        (Pool.new W config minSize maxSize initial sequence) es) ∧
    ∀ (c : Pool V) (q : TaskQueue V), c.toConfig = config → Backs config.priorityAgingMs q c.queue →
      Takes config.priorityAgingMs q.shift (Pool.shiftOf .dispatch c c.queue) ∧
        Takes config.priorityAgingMs (q.shiftForReply config.priorityAgingMs c.now)
          (Pool.shiftOf .inline c c.queue) := by
  refine ⟨takesNext_iff config, ?_, ?_⟩
  · intro W T minSize maxSize initial sequence es
    have hnew := new_same (V := V) W config minSize maxSize initial sequence
    have hstart : QueueOk (Pool.new W config minSize maxSize initial sequence : Pool V) :=
      queueOk_new W config minSize maxSize initial sequence
    have hstep : ∀ (c : Pool V) (e : Event V),
        (QueueOk c ∧ c.toConfig = config ∧ Consistent c ∧ Served c) →
          QueueOk (step W T c e) ∧ (step W T c e).toConfig = config ∧ Consistent (step W T c e) ∧
            Served (step W T c e) := by
      rintro c e ⟨hok, hconfig, hc, hs⟩
      have hmoves : Moves W T (Allowed.any V) c (step W T c e) :=
        step_moves (fun _ _ => trivial) (fun _ _ _ => trivial) (fun _ => trivial) hok.bounded e
      exact ⟨queueOk_step hok e, hmoves.config.trans hconfig, served_step hok hc hs e⟩
    refine (always_of_step hstep ⟨hstart, hnew.config, ?_, ?_⟩ es).mono fun _ h => h.2
    · intro item hitem
      rw [hnew.queue] at hitem
      exact absurd hitem List.not_mem_nil
    · intro t ht
      rw [hnew.takes] at ht
      exact absurd ht List.not_mem_nil
  · rintro c q rfl hbacks
    exact ⟨hbacks.shift, hbacks.shiftForReply⟩

theorem IsNext.le {config : Config} {now : ℚ} {aborted : List ℕ} {queue : List (QueueItem V)}
    {item z : QueueItem V} (h : IsNext config now aborted queue item) (hz : z ∈ queue)
    (hlive : z.live now aborted = true) :
    effectivePriority config now z ≤ effectivePriority config now item := by
  obtain ⟨pre, post, heq, hbest⟩ := h
  have hmem : z ∈ pre ++ item :: post := heq ▸ List.mem_filter.mpr ⟨hz, hlive⟩
  rcases List.mem_append.mp hmem with hz | hz
  · exact (hbest.before z hz).le
  · rcases List.mem_cons.mp hz with rfl | hz
    · exact le_rfl
    · exact hbest.after z hz

/-- A pool of one worker that takes one task at a time, where priorities age. -/
def aging : Pool (Option (List UInt8)) :=
  .new .sound { maxTasksPerWorker := some 1, priorityAgingMs := 1000 } 1 1 1 0

/-- A queue that is resumed serves the first task of two, although the second has the
greater priority. -/
theorem resumed_queue_is_fifo :
    ¬ ∀ t ∈ (run (step .sound idText) aging
      [.post (.object none) none {} [], .post (.object none) none {} [],
        .post (.object none) none { priority := some 10 } [], .pause, .message 0 (.data false none none),
        .resume]).takes,
      IsNext aging.toConfig t.now t.aborted t.queue t.item := by
  intro h
  have hwrong : ∃ t ∈ (run (step .sound idText) aging
      [.post (.object none) none {} [], .post (.object none) none {} [],
        .post (.object none) none { priority := some 10 } [], .pause, .message 0 (.data false none none),
        .resume]).takes, ∃ z ∈ t.queue, z.live t.now t.aborted = true ∧
      effectivePriority aging.toConfig t.now t.item < effectivePriority aging.toConfig t.now z := by
    decide +kernel
  obtain ⟨t, ht, z, hz, hlive, hlt⟩ := hwrong
  exact not_le.mpr hlt ((h t ht).le hz hlive)

end PerformanceHelpers.PowerPool
