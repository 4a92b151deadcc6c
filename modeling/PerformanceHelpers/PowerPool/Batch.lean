import PerformanceHelpers.PowerPool.Abort
import PerformanceHelpers.PowerPool.Refusal

/- Batches that await responses (`src/helpers/powerPool.js`: `postMessageBatch`,
   `_resolveBatchCorrelationIds` and the posts they make).

   The ids of a batch are validated as a set before anything is posted, and each message
   when its turn comes.

   What is proved:
     1. `request_cases` — a request throws and nothing is done, or one promise is made and
        handed back, unless its id is empty and it is refused.
     2. `postEach_answers` — the answers of requests that do not throw, by what they number.
     3. `batch_atomic_iff` — exactly which batches are all or nothing. -/
namespace PerformanceHelpers.PowerPool

variable {V : Type}

/-- What `correlationIdFactory` answers for the items from place `i` on. It is its
caller's code, and may throw. -/
def correlationIds (factory : ℕ → Pool.BatchItem V → Except String String) :
    ℕ → List (Pool.BatchItem V) → Except String (List String)
  | _, [] => .ok []
  | i, it :: items =>
    match factory i it with
    | .error e => .error e
    | .ok id => (correlationIds factory (i + 1) items).map (id :: ·)

def batchIds (factory : Option (ℕ → Pool.BatchItem V → Except String String))
    (items : List (Pool.BatchItem V)) : Except String (Option (List String)) :=
  match factory with
  | none => .ok none
  | some factory => (correlationIds factory 0 items).map some

/-- `postMessageBatch`, with its `correlationIdFactory`. -/
def Pool.postBatch (W : World) (T : ObjectText V) (c : Pool V) (items : List (Pool.BatchItem V))
    (o : PostOptions) (factory : Option (ℕ → Pool.BatchItem V → Except String String))
    (detached : List ℕ) : Pool V × Except String (List Result) :=
  if c.terminated = true ∨ o.wantResponse = false then
    c.postMessageBatch W T items o none detached
  else
    match batchIds factory items with
    | .error e => (c, .error e)
    | .ok ids => c.postMessageBatch W T items o ids detached

/-! ## All or nothing -/

structure Untouched (c c' : Pool V) : Prop where
  posted : c'.posted = c.posted
  enqueued : c'.enqueued = c.enqueued
  pending : c'.pending = c.pending
  asked : c'.nextPromise = c.nextPromise

/-- Every response that has been awaited since belongs to a promise of the results. -/
structure Accounted (c c' : Pool V) (results : List Result) : Prop where
  asked : ∀ n, c.nextPromise ≤ n → n < c'.nextPromise → .promise n ∈ results
  pending : ∀ e ∈ c'.pending, (∃ e' ∈ c.pending, e'.promise = e.promise) ∨
    .promise e.promise ∈ results

/-- A batch throws and does nothing, or answers for each item and accounts for what it has
registered. -/
def Atomic (c : Pool V) (items : List (Pool.BatchItem V)) (r : Pool V × Except String (List Result)) :
    Prop :=
  match r.2 with
  | .error _ => Untouched c r.1
  | .ok results => results.length = items.length ∧ Accounted c r.1 results

/-- A request that does not throw: its deadline is a number, and its message is a plain
object, or its signal has aborted already. -/
structure Postable (c : Pool V) (m : Message V) (o : PostOptions) : Prop where
  running : c.terminated = false
  deadline : ∃ deadlineAt, Pool.deadlineOf o = .ok deadlineAt
  message : (∃ s ∈ o.signal, s ∈ c.aborted) ∨ m.isPlainObject = true

/-- A request under the empty id that is refused: it is answered `false`, and its entry
stays. -/
structure Strands (W : World) (c : Pool V) (o : PostOptions) : Prop where
  key : o.correlationId = some ""
  signal : ∀ s ∈ o.signal, s ∉ c.aborted
  refused : ∃ deadlineAt, Pool.deadlineOf o = .ok deadlineAt ∧
    Refuses W (c.leastFor W o.workerId).1 (c.leastFor W o.workerId).2 deadlineAt o

/-- The batch is thrown back at its first item, or every item can be posted and none of
them is stranded. -/
def BatchOk (W : World) (T : ObjectText V) (c : Pool V) (items : List (Pool.BatchItem V))
    (o : PostOptions) (ids : Option (List String)) (detached : List ℕ) : Prop :=
  c.terminated = false → BatchOpens c items o ids →
    (∃ it ∈ items.head?, ¬ Postable c it.1 o) ∨
      (∀ it ∈ items, Postable c it.1 o) ∧
        EachMeets W T (fun c _ _ o _ => ¬ Strands W c o) detached c (batchPosts items o ids)

/-! ## What a post leaves alone -/

structure SameAsked (c c' : Pool V) : Prop where
  terminated : c'.terminated = c.terminated
  nextPromise : c'.nextPromise = c.nextPromise

section
variable {W : World} {T : ObjectText V} {c c' c'' : Pool V}

theorem SameAsked.refl (c : Pool V) : SameAsked c c := ⟨rfl, rfl⟩

theorem SameAsked.trans (h : SameAsked c c') (h' : SameAsked c' c'') : SameAsked c c'' :=
  ⟨h'.terminated.trans h.terminated, h'.nextPromise.trans h.nextPromise⟩

section
variable (c : Pool V)

theorem asked_updateIdleState : SameAsked c c.updateIdleState := by
  unfold Pool.updateIdleState
  dsimp only
  split_ifs <;> exact ⟨rfl, rfl⟩

theorem asked_idle : SameAsked c (if c.isIdle then c.updateIdleState else c) := by
  split
  · exact asked_updateIdleState c
  · exact .refl c

theorem asked_cleanup (key : String) (s : Settlement) :
    SameAsked c (c.cleanupPendingResponse key s) := by
  rw [cleanupPendingResponse_eq]
  exact ⟨rfl, rfl⟩

theorem asked_refuse (waiter : Waiter) (s : Settlement) :
    SameAsked c (c.refuse waiter s).1 := by
  rcases refuse_cases c waiter s with ⟨-, h⟩ | ⟨key, n, -, -, h⟩
  · rw [h]
    exact .refl c
  · rw [h]
    exact asked_cleanup c key s

theorem asked_evict : SameAsked c c.evict := by
  rcases evict_cases c with ⟨h, -⟩ | ⟨dropped, rest, pending, settled, -, h, -⟩
  · rw [h]
    exact .refl c
  · rw [h]
    exact ⟨rfl, rfl⟩

theorem asked_pushItem (item : QueueItem V) (waiter : Waiter) :
    SameAsked c (c.pushItem item waiter).1 := by
  have henqueue : SameAsked c (c.enqueue item) := ⟨rfl, rfl⟩
  exact henqueue.trans (asked_updateIdleState _)

theorem asked_enqueueOrReject (prepared : Prepared V) (waiter : Waiter)
    (deadlineAt : Option ℚ) (o : PostOptions) (origin : Origin V) :
    SameAsked c (c.enqueueOrReject prepared waiter deadlineAt o origin).1 := by
  rcases enqueueOrReject_cases c prepared waiter deadlineAt o origin with
    ⟨-, -, h⟩ | ⟨-, -, h⟩ | ⟨-, e, h⟩
  · rw [h]
    exact (asked_evict c).trans (asked_pushItem _ _ waiter)
  · rw [h]
    exact asked_pushItem c _ waiter
  · rw [h]
    exact asked_refuse c waiter _

theorem asked_recordPost (p : Post V) (key : Option String) (busy : Bool) :
    SameAsked c (c.recordPost p key busy) := by
  obtain ⟨ws, bs, bt, h⟩ := recordPost_eq c p key busy
  rw [h]
  exact ⟨rfl, rfl⟩

theorem asked_listenForAbort (signal : Option ℕ) (key : Option String) :
    SameAsked c (c.listenForAbort signal key) := by
  unfold Pool.listenForAbort
  split
  · split
    · exact asked_cleanup c _ _
    · exact ⟨rfl, rfl⟩
  · exact .refl c

theorem asked_dispatchToWorker (id : ℕ) (prepared : Prepared V) (key : Option String)
    (signal : Option ℕ) (viaQueue : Bool) (origin : Origin V) :
    SameAsked c (c.dispatchToWorker W T id prepared key signal viaQueue origin).1 := by
  have hattempt : SameAsked c (c.attempt W).1 := ⟨rfl, rfl⟩
  unfold Pool.dispatchToWorker
  dsimp only
  split
  · exact (hattempt.trans (asked_recordPost _ _ key true)).trans (asked_listenForAbort _ signal key)
  · exact hattempt

theorem asked_postToWorkerObj (id : ℕ) (prepared : Prepared V) (waiter : Waiter)
    (signal : Option ℕ) (origin : Origin V) (detached : List ℕ) :
    SameAsked c (c.postToWorkerObj W T id prepared waiter signal origin detached).1 := by
  have hattempt : SameAsked c (c.attempt W).1 := ⟨rfl, rfl⟩
  unfold Pool.postToWorkerObj
  dsimp only
  split
  · split
    · exact (hattempt.trans (asked_recordPost _ _ _ false)).trans (asked_idle _)
    · exact hattempt.trans (asked_refuse _ waiter _)
  · have hdispatch := asked_dispatchToWorker (W := W) (T := T) c id (c.encodeFor T id prepared)
      (waiter.map (·.1)) signal false origin
    split
    · exact hdispatch.trans (asked_idle _)
    · exact hdispatch.trans (asked_refuse _ waiter _)

theorem asked_takeRoute (route : Pool.PostRoute) (prepared : Prepared V)
    (waiter : Waiter) (deadlineAt : Option ℚ) (o : PostOptions) (origin : Origin V)
    (detached : List ℕ) :
    SameAsked c (c.takeRoute W T route prepared waiter deadlineAt o origin detached).1 := by
  cases route with
  | refuse error => exact asked_refuse c waiter _
  | queue => exact asked_enqueueOrReject c prepared waiter deadlineAt o origin
  | worker id => exact asked_postToWorkerObj c id prepared waiter o.signal origin detached
  | fallback id =>
    have hadvance : SameAsked c c.advance := ⟨rfl, rfl⟩
    exact hadvance.trans (asked_postToWorkerObj c.advance id prepared waiter none origin detached)
  | grow =>
    have hadd : SameAsked c (c.tryAddWorker W).1 := by
      unfold Pool.tryAddWorker
      split <;> exact ⟨rfl, rfl⟩
    unfold Pool.takeRoute Pool.tryGrowPool
    dsimp only
    split
    · exact hadd.trans (asked_refuse _ waiter _)
    · exact hadd.trans (asked_postToWorkerObj _ _ prepared waiter o.signal origin detached)

theorem asked_postFor (least : Option Worker) (m : Message V) (tr : TransferList)
    (waiter : Waiter) (deadlineAt : Option ℚ) (o : PostOptions) (detached : List ℕ) :
    SameAsked c (c.postFor W T least m tr waiter deadlineAt o detached).1 := by
  unfold Pool.postFor
  split
  · exact asked_refuse c waiter _
  · exact asked_takeRoute c _ _ waiter deadlineAt o _ detached

theorem asked_leastFor (target : Option ℕ) : SameAsked c (c.leastFor W target).1 := by
  refine ⟨?_, (SameTasks.leastFor W c target).nextPromise⟩
  unfold Pool.leastFor
  split
  · rfl
  · split
    · rfl
    · unfold Pool.selectWorker
      dsimp only
      repeat' split
      all_goals rfl

end

/-! ## One request -/

structure Asks (c c' : Pool V) : Prop where
  terminated : c'.terminated = c.terminated
  aborted : c'.aborted = c.aborted
  nextPromise : c'.nextPromise = c.nextPromise + 1
  pending : ∀ e ∈ c'.pending, (∃ e' ∈ c.pending, e'.promise = e.promise) ∨ e.promise = c.nextPromise

variable {m : Message V} {o : PostOptions}

theorem Postable.of_asks (hasks : Asks c c') : Postable c' m o ↔ Postable c m o := by
  constructor
  · intro h
    exact ⟨hasks.terminated ▸ h.running, h.deadline, hasks.aborted ▸ h.message⟩
  · intro h
    exact ⟨hasks.terminated.trans h.running, h.deadline, hasks.aborted.symm ▸ h.message⟩

theorem request_throws (hwant : o.wantResponse = true) (h : ¬ Postable c m o) (tr : TransferList)
    (detached : List ℕ) :
    (∃ e, (c.postMessageInner W T m tr o detached).2 = .threw e) ∧
      Untouched c (c.postMessageInner W T m tr o detached).1 := by
  have hleast := SameTasks.leastFor W c o.workerId
  unfold Pool.postMessageInner
  split
  · exact ⟨⟨_, rfl⟩, rfl, rfl, rfl, rfl⟩
  · next hrunning =>
    split
    · exact ⟨⟨_, rfl⟩, rfl, rfl, rfl, rfl⟩
    · next deadlineAt hdeadline =>
      have hmessage : ¬ ((∃ s ∈ o.signal, s ∈ c.aborted) ∨ m.isPlainObject = true) := fun hm =>
        h ⟨by simpa using hrunning, ⟨deadlineAt, hdeadline⟩, hm⟩
      obtain ⟨hsignal, hplain⟩ := not_or.mp hmessage
      dsimp only
      split
      · next s hs =>
        obtain ⟨hmem, hab⟩ := Option.filter_eq_some_iff.mp hs
        exact absurd ⟨s, hmem, by simpa using hab⟩ hsignal
      · unfold Pool.postRequest
        dsimp only
        rw [if_neg hplain]
        have hsame := hleast.trans (SameTasks.correlationIdFor (c.leastFor W o.workerId).1 o)
        exact ⟨⟨_, rfl⟩, hsame.posted, hsame.enqueued, hsame.pending, hsame.nextPromise⟩

theorem refuseAborted_asks (hwant : o.wantResponse = true) (s : ℕ) :
    Asks c (c.refuseAborted o s).1 ∧ (c.refuseAborted o s).2 = .promise c.nextPromise := by
  unfold Pool.refuseAborted
  rw [if_pos hwant]
  exact ⟨⟨rfl, rfl, rfl, fun e he => Or.inl ⟨e, he, rfl⟩⟩, rfl⟩

theorem Asks.of_same (h : SameAsked c c') (hsame : SameTasks c c') (hasks : Asks c' c'') :
    Asks c c'' where
  terminated := hasks.terminated.trans h.terminated
  aborted := hasks.aborted.trans hsame.aborted
  nextPromise := by rw [hasks.nextPromise, h.nextPromise]
  pending e he := by
    rw [← h.nextPromise, ← hsame.pending]
    exact hasks.pending e he

/-- A request is registered, and then posted for its promise. -/
theorem register_asks (key : String) (o : PostOptions) (h : SameAsked (c.register key o) c')
    (hentries : Entries (c.register key o) c') : Asks c c' := by
  have hnext : (c.register key o).nextPromise = c.nextPromise + 1 := by rw [register_eq]
  constructor
  · rw [h.terminated, register_eq]
  · rw [hentries.2.2, register_eq]
  · rw [h.nextPromise, hnext]
  · intro e he
    obtain ⟨e', he', -, hpromise⟩ := hentries.1 e he
    rw [register_eq] at he'
    rcases List.mem_append.mp he' with he' | he'
    · exact Or.inl ⟨e', (List.mem_filter.mp he').1, hpromise⟩
    · obtain rfl := List.mem_singleton.mp he'
      exact Or.inr hpromise.symm

/-- A request that does not throw makes one promise, which it answers unless it is stranded. -/
theorem request_asks (hwant : o.wantResponse = true) (h : Postable c m o) (tr : TransferList)
    (detached : List ℕ) :
    Asks c (c.postMessageInner W T m tr o detached).1 ∧
      (Strands W c o ∧ (c.postMessageInner W T m tr o detached).2 = .refused ∨
        ¬ Strands W c o ∧ (c.postMessageInner W T m tr o detached).2 = .promise c.nextPromise) := by
  obtain ⟨deadlineAt, hdeadline⟩ := h.deadline
  have hleast := SameTasks.leastFor W c o.workerId
  have hasked := asked_leastFor (W := W) c o.workerId
  by_cases haborted : ∃ s ∈ o.signal, s ∈ c.aborted
  · obtain ⟨s, hs, hab⟩ := haborted
    have hfilter : o.signal.filter (· ∈ c.aborted) = some s :=
      Option.filter_eq_some_iff.mpr ⟨hs, by simpa using hab⟩
    obtain ⟨hasks, hanswer⟩ := refuseAborted_asks (c := (c.leastFor W o.workerId).1) hwant s
    unfold Pool.postMessageInner
    rw [if_neg (by rw [h.running]; exact Bool.false_ne_true), hdeadline]
    dsimp only
    rw [hfilter]
    dsimp only
    refine ⟨hasks.of_same hasked hleast, Or.inr ⟨fun hstrands => hstrands.signal s hs hab, ?_⟩⟩
    rw [hanswer, hasked.nextPromise]
  · have henters : Enters c m o deadlineAt :=
      ⟨h.running, hdeadline, fun s hs hab => haborted ⟨s, hs, hab⟩,
        fun _ => h.message.resolve_left haborted⟩
    have hrefuses := refuses_register W (c.leastFor W o.workerId).1 (c.leastFor W o.workerId).2
      deadlineAt o
    have hempty := correlationIdFor_eq_empty (c := (c.leastFor W o.workerId).1) (o := o)
    have hid : SameAsked (c.leastFor W o.workerId).1
        ((c.leastFor W o.workerId).1.correlationIdFor o).1 := by
      obtain ⟨n, hn⟩ := correlationIdFor_eq (c.leastFor W o.workerId).1 o
      rw [hn]
      exact ⟨rfl, rfl⟩
    have hmine := hleast.trans (SameTasks.correlationIdFor (c.leastFor W o.workerId).1 o)
    have hnext := (hasked.trans hid).nextPromise
    rw [postMessageInner_of_enters henters hwant]
    generalize ((c.leastFor W o.workerId).1.correlationIdFor o).2 = key at hempty hrefuses ⊢
    generalize ((c.leastFor W o.workerId).1.correlationIdFor o).1 = d at hid hmine hnext hrefuses ⊢
    refine ⟨(register_asks key o (asked_postFor _ _ _ tr _ deadlineAt o detached)
      (entries_postFor W T _ _ _ tr _ deadlineAt o detached)).of_same (hasked.trans hid) hmine, ?_⟩
    rw [← hnext]
    by_cases hrefused : Refuses W (d.register key o) (c.leastFor W o.workerId).2 deadlineAt o
    · obtain ⟨c', e, -, hr⟩ := postFor_refused W T (some (key, d.nextPromise)) deadlineAt o detached
        hrefused (Pool.withCorrelationId T m key) tr
      rw [hr]
      rcases refuse_cases c' (some (key, d.nextPromise)) (.rejected e) with
        ⟨hkey, hr⟩ | ⟨key', n, hw, hkey, hr⟩
      · rw [hr]
        have hstrands : Strands W c o :=
          ⟨hempty.mp (hkey key _ rfl), henters.signal, deadlineAt, hdeadline, hrefuses.mp hrefused⟩
        exact Or.inl ⟨hstrands, rfl⟩
      · cases hw
        rw [hr]
        exact Or.inr ⟨fun hstrands => hkey (hempty.mpr hstrands.key), rfl⟩
    · refine Or.inr ⟨?_, (postFor_served W T _ deadlineAt o detached hrefused _ tr).2⟩
      rintro ⟨-, -, deadlineAt', hdeadline', hrefused'⟩
      obtain rfl := Except.ok.inj (hdeadline'.symm.trans hdeadline)
      exact hrefused (hrefuses.mpr hrefused')

/-! ## The requests of a batch -/

structure AsksLike (o : PostOptions) (p : Pool.BatchItem V × PostOptions) : Prop where
  wants : p.2.wantResponse = true
  signal : p.2.signal = o.signal
  deadlineAt : p.2.deadlineAt = o.deadlineAt

variable {posts : List (Pool.BatchItem V × PostOptions)} {p : Pool.BatchItem V × PostOptions}
variable {items : List (Pool.BatchItem V)}

theorem AsksLike.postable (h : AsksLike o p) :
    Postable c p.1.1 p.2 ↔ Postable c p.1.1 o := by
  have hdeadline : Pool.deadlineOf p.2 = Pool.deadlineOf o := by
    unfold Pool.deadlineOf
    rw [h.deadlineAt]
  constructor
  · intro hp
    exact ⟨hp.running, hdeadline ▸ hp.deadline, h.signal ▸ hp.message⟩
  · intro hp
    exact ⟨hp.running, hdeadline.symm ▸ hp.deadline, h.signal.symm ▸ hp.message⟩

/-- What `k` requests that do not throw leave, and what they answer. -/
structure Numbered (c c' : Pool V) (k : ℕ) (results : List Result) : Prop where
  length : results.length = k
  nextPromise : c'.nextPromise = c.nextPromise + k
  later : ∀ n, .promise n ∈ results → c.nextPromise ≤ n
  pending : ∀ e ∈ c'.pending, (∃ e' ∈ c.pending, e'.promise = e.promise) ∨
    c.nextPromise ≤ e.promise ∧ e.promise < c'.nextPromise

theorem Numbered.nil (c : Pool V) : Numbered c c 0 [] :=
  ⟨rfl, rfl, fun _ hn => absurd hn List.not_mem_nil, fun e he => Or.inl ⟨e, he, rfl⟩⟩

theorem Numbered.cons {k : ℕ} {r : Result} {results : List Result} (hfirst : Asks c c')
    (hrest : Numbered c' c'' k results) (hr : ∀ n, r = .promise n → n = c.nextPromise) :
    Numbered c c'' (k + 1) (r :: results) := by
  have hnext := hfirst.nextPromise
  constructor
  · rw [List.length_cons, hrest.length]
  · rw [hrest.nextPromise, hnext]
    omega
  · intro n hn
    rcases List.mem_cons.mp hn with hn | hn
    · exact (hr n hn.symm).ge
    · have hlater := hrest.later n hn
      omega
  · intro e he
    have hend := hrest.nextPromise
    rcases hrest.pending e he with ⟨e', he', hpromise⟩ | ⟨hle, hlt⟩
    · rw [← hpromise]
      rcases hfirst.pending e' he' with hold | hnew
      · exact Or.inl hold
      · exact Or.inr (by omega)
    · exact Or.inr (by omega)

/-- The promises of requests are accounted for when those of each are. -/
theorem Numbered.accounted_iff {k : ℕ} {results : List Result} (h : Numbered c c' k results) :
    Accounted c c' results ↔
      ∀ n, c.nextPromise ≤ n → n < c.nextPromise + k → .promise n ∈ results := by
  rw [← h.nextPromise]
  constructor
  · exact fun ha => ha.asked
  · intro hall
    refine ⟨hall, fun e he => ?_⟩
    rcases h.pending e he with hold | ⟨hle, hlt⟩
    · exact Or.inl hold
    · exact Or.inr (hall e.promise hle hlt)

theorem postEach_cons_throws
    (hwant : p.2.wantResponse = true) (h : ¬ Postable c p.1.1 p.2) (detached : List ℕ)
    (posts : List (Pool.BatchItem V × PostOptions)) :
    (∃ e, (c.postEach W T detached (p :: posts)).2 = .error e) ∧
      Untouched c (c.postEach W T detached (p :: posts)).1 := by
  obtain ⟨⟨e, he⟩, huntouched⟩ := request_throws (W := W) (T := T) hwant h p.1.2 detached
  rw [Pool.postEach]
  dsimp only
  rw [he]
  exact ⟨⟨e, rfl⟩, huntouched⟩

theorem postEach_cons_asks
    (hwant : p.2.wantResponse = true) (h : Postable c p.1.1 p.2) (detached : List ℕ)
    (posts : List (Pool.BatchItem V × PostOptions)) :
    (c.postMessageInner W T p.1.1 p.1.2 p.2 detached).2.error? = none ∧
      c.postEach W T detached (p :: posts) =
      (((c.postMessageInner W T p.1.1 p.1.2 p.2 detached).1.postEach W T detached posts).1,
        ((c.postMessageInner W T p.1.1 p.1.2 p.2 detached).1.postEach W T detached posts).2.map
          ((c.postMessageInner W T p.1.1 p.1.2 p.2 detached).2 :: ·)) := by
  obtain ⟨-, hanswer⟩ := request_asks (W := W) (T := T) hwant h p.1.2 detached
  have herror : (c.postMessageInner W T p.1.1 p.1.2 p.2 detached).2.error? = none := by
    rcases hanswer with ⟨-, hr⟩ | ⟨-, hr⟩
    · rw [hr]
      rfl
    · rw [hr]
      rfl
  refine ⟨herror, ?_⟩
  rw [Pool.postEach]
  dsimp only
  rw [herror]

theorem postEach_answers (detached : List ℕ)
    (hposts : ∀ p ∈ posts, p.2.wantResponse = true ∧ Postable c p.1.1 p.2) :
    ∃ results, (c.postEach W T detached posts).2 = .ok results ∧
      Numbered c (c.postEach W T detached posts).1 posts.length results ∧
      ((∀ n, c.nextPromise ≤ n → n < c.nextPromise + posts.length → .promise n ∈ results) ↔
        EachMeets W T (fun c _ _ o _ => ¬ Strands W c o) detached c posts) := by
  induction posts generalizing c with
  | nil => exact ⟨[], rfl, .nil c, iff_of_true (fun n hle hlt => by simp at hlt; omega) trivial⟩
  | cons p posts ih =>
    obtain ⟨hwant, hpost⟩ := hposts p List.mem_cons_self
    obtain ⟨hasks, hanswer⟩ := request_asks (W := W) (T := T) hwant hpost p.1.2 detached
    obtain ⟨herror, heq⟩ := postEach_cons_asks (W := W) (T := T) hwant hpost detached posts
    have hrest : ∀ q ∈ posts, q.2.wantResponse = true ∧
        Postable (c.postMessageInner W T p.1.1 p.1.2 p.2 detached).1 q.1.1 q.2 := fun q hq =>
      ⟨(hposts q (List.mem_cons_of_mem p hq)).1,
        (Postable.of_asks hasks).mpr (hposts q (List.mem_cons_of_mem p hq)).2⟩
    obtain ⟨results, hok, hanswered, hiff⟩ := ih hrest
    have hnext := hasks.nextPromise
    rw [heq, hok]
    refine ⟨(c.postMessageInner W T p.1.1 p.1.2 p.2 detached).2 :: results, rfl, ?_, ?_⟩
    · apply Numbered.cons hasks hanswered
      intro n hn
      rcases hanswer with ⟨-, hr⟩ | ⟨-, hr⟩
      · cases hr.symm.trans hn
      · exact (Result.promise.inj (hr.symm.trans hn)).symm
    · rw [EachMeets, List.length_cons]
      rcases hanswer with ⟨hstrands, hr⟩ | ⟨hstrands, hr⟩
      · -- the promise of a stranded request is not among the answers
        rw [hr]
        refine iff_of_false (fun hall => ?_) (fun h => h.1 hstrands)
        have hmem := hall c.nextPromise le_rfl (by omega)
        rcases List.mem_cons.mp hmem with hmem | hmem
        · cases hmem
        · have hlater := hanswered.later _ hmem
          omega
      · rw [hr] at herror ⊢
        constructor
        · intro hall
          refine ⟨hstrands, fun _ => hiff.mp fun n hle hlt => ?_⟩
          rcases List.mem_cons.mp (hall n (by omega) (by omega)) with hmem | hmem
          · have hn := Result.promise.inj hmem
            omega
          · exact hmem
        · intro h n hle hlt
          by_cases hn : n = c.nextPromise
          · rw [hn]
            exact List.mem_cons_self
          · have hmem := hiff.mpr (h.2 herror) n (by omega) (by omega)
            exact List.mem_cons_of_mem _ hmem

/-- A request that throws after others is the end of the batch, and the others stay asked. -/
theorem postEach_breaks (detached : List ℕ) {q : Pool.BatchItem V × PostOptions}
    (hwants : ∀ q ∈ p :: posts, q.2.wantResponse = true) (hfirst : Postable c p.1.1 p.2)
    (hmem : q ∈ posts) (hq : ¬ Postable c q.1.1 q.2) :
    (∃ e, (c.postEach W T detached (p :: posts)).2 = .error e) ∧
      c.nextPromise < (c.postEach W T detached (p :: posts)).1.nextPromise := by
  induction posts generalizing c p with
  | nil => exact absurd hmem List.not_mem_nil
  | cons p' posts ih =>
    have hwant := hwants p List.mem_cons_self
    have hasks := (request_asks (W := W) (T := T) hwant hfirst p.1.2 detached).1
    have hnext := hasks.nextPromise
    rw [(postEach_cons_asks (W := W) (T := T) hwant hfirst detached (p' :: posts)).2]
    dsimp only
    generalize (c.postMessageInner W T p.1.1 p.1.2 p.2 detached).1 = d at hasks hnext ⊢
    generalize (c.postMessageInner W T p.1.1 p.1.2 p.2 detached).2 = r
    have hwants' : ∀ q ∈ p' :: posts, q.2.wantResponse = true := fun q hq =>
      hwants q (List.mem_cons_of_mem p hq)
    by_cases hp' : Postable d p'.1.1 p'.2
    · have hin : q ∈ posts := by
        rcases List.mem_cons.mp hmem with rfl | hin
        · exact absurd ((Postable.of_asks hasks).mp hp') hq
        · exact hin
      obtain ⟨⟨e, he⟩, hlt⟩ := ih hwants' hp' hin fun h => hq ((Postable.of_asks hasks).mp h)
      rw [he]
      exact ⟨⟨e, rfl⟩, by omega⟩
    · obtain ⟨⟨e, he⟩, huntouched⟩ := postEach_cons_throws (W := W) (T := T)
        (hwants' p' List.mem_cons_self) hp' detached posts
      rw [he, huntouched.asked]
      exact ⟨⟨e, rfl⟩, by omega⟩

/-! ## Batches -/

theorem length_correlationIds {factory : ℕ → Pool.BatchItem V → Except String String} {i : ℕ}
    {ids : List String}
    (h : correlationIds factory i items = .ok ids) : ids.length = items.length := by
  induction items generalizing i ids with
  | nil =>
    cases h
    rfl
  | cons it items ih =>
    rw [correlationIds] at h
    split at h
    · cases h
    · cases hrest : correlationIds factory (i + 1) items with
      | error e =>
        rw [hrest] at h
        cases h
      | ok rest =>
        rw [hrest] at h
        cases h
        rw [List.length_cons, List.length_cons, ih hrest]

theorem batchPosts_items {ids : Option (List String)}
    (hids : ∀ l ∈ ids, l.length = items.length) :
    (batchPosts items o ids).map (·.1) = items := by
  cases ids with
  | none =>
    rw [batchPosts, List.map_map]
    exact List.map_id items
  | some ids =>
    rw [batchPosts, List.map_map]
    exact List.map_fst_zip (hids ids rfl).ge

theorem batchPosts_asks (hwant : o.wantResponse = true)
    {ids : Option (List String)}
    (hp : p ∈ batchPosts items o ids) : AsksLike o p := by
  cases ids with
  | none =>
    obtain ⟨it, -, rfl⟩ := List.mem_map.mp hp
    exact ⟨hwant, rfl, rfl⟩
  | some ids =>
    obtain ⟨q, -, rfl⟩ := List.mem_map.mp hp
    exact ⟨by simp [PostOptions.wantResponse], rfl, rfl⟩

/-- A batch that awaits responses is thrown back as a whole, or its items are posted. -/
theorem postMessageBatch_opens (hwant : o.wantResponse = true) (c : Pool V)
    (items : List (Pool.BatchItem V)) (ids : Option (List String)) (detached : List ℕ) :
    ¬ (c.terminated = false ∧ BatchOpens c items o ids) ∧
        (∃ e, c.postMessageBatch W T items o ids detached = (c, .error e)) ∨
      (c.terminated = false ∧ BatchOpens c items o ids) ∧
        c.postMessageBatch W T items o ids detached =
          c.postEach W T detached (batchPosts items o ids) := by
  unfold Pool.postMessageBatch
  split
  · next hterminated =>
    refine Or.inl ⟨fun h => ?_, _, rfl⟩
    rw [h.1] at hterminated
    cases hterminated
  · next hrunning =>
    have hrunning : c.terminated = false := by simpa using hrunning
    cases ids with
    | none =>
      dsimp only
      split
      · next hfixed => exact Or.inl ⟨fun h => h.2 hfixed, _, rfl⟩
      · next hopens => exact Or.inr ⟨⟨hrunning, hopens⟩, rfl⟩
    | some ids =>
      dsimp only
      split
      · next hopens => exact Or.inr ⟨⟨hrunning, hopens⟩, rfl⟩
      · next hduplicate => exact Or.inl ⟨fun h => hduplicate h.2, _, rfl⟩

theorem Untouched.refl (c : Pool V) : Untouched c c := ⟨rfl, rfl, rfl, rfl⟩

/-- The requests of a batch are all or nothing where none throws after another, and none is
stranded. -/
theorem postEach_atomic_iff (detached : List ℕ)
    (hlike : ∀ p ∈ posts, AsksLike o p) :
    Atomic c (posts.map (·.1)) (c.postEach W T detached posts) ↔
      (∃ it ∈ (posts.map (·.1)).head?, ¬ Postable c it.1 o) ∨
        (∀ it ∈ posts.map (·.1), Postable c it.1 o) ∧
          EachMeets W T (fun c _ _ o _ => ¬ Strands W c o) detached c posts := by
  by_cases hall : ∀ it ∈ posts.map (·.1), Postable c it.1 o
  · have hposts : ∀ p ∈ posts, p.2.wantResponse = true ∧ Postable c p.1.1 p.2 := fun p hp =>
      ⟨(hlike p hp).wants, (hlike p hp).postable.mpr (hall p.1 (List.mem_map_of_mem hp))⟩
    obtain ⟨results, hok, hnumbered, hiff⟩ := postEach_answers (W := W) (T := T)
      detached hposts
    have hhead : ¬ ∃ it ∈ (posts.map (·.1)).head?, ¬ Postable c it.1 o := by
      rintro ⟨it, hit, hthrows⟩
      exact hthrows (hall it (List.mem_of_mem_head? hit))
    rw [Atomic, hok, or_iff_right hhead, and_iff_right hall, ← hiff, ← hnumbered.accounted_iff]
    dsimp only
    rw [List.length_map]
    exact and_iff_right hnumbered.length
  · cases posts with
    | nil => exact absurd (fun it hit => absurd hit List.not_mem_nil) hall
    | cons p posts =>
      by_cases hp : Postable c p.1.1 o
      · have hlater : ∃ q ∈ posts, ¬ Postable c q.1.1 q.2 := by
          by_contra hnone
          apply hall
          intro it hit
          obtain ⟨q, hq, rfl⟩ := List.mem_map.mp hit
          rcases List.mem_cons.mp hq with rfl | hq'
          · exact hp
          · by_contra hthrows
            exact hnone ⟨q, hq', fun h => hthrows ((hlike q hq).postable.mp h)⟩
        obtain ⟨q, hq, hthrows⟩ := hlater
        obtain ⟨⟨e, he⟩, hasked⟩ := postEach_breaks (W := W) (T := T) detached
          (fun q hq => (hlike q hq).wants) ((hlike p List.mem_cons_self).postable.mpr hp) hq hthrows
        rw [Atomic, he]
        refine iff_of_false (fun h => ?_) ?_
        · rw [h.asked] at hasked
          exact Nat.lt_irrefl _ hasked
        · rintro (⟨it, hit, hfirst⟩ | ⟨h, -⟩)
          · cases hit
            exact hfirst hp
          · exact hall h
      · obtain ⟨⟨e, he⟩, huntouched⟩ := postEach_cons_throws (W := W) (T := T)
          (hlike p List.mem_cons_self).wants
          (fun h => hp ((hlike p List.mem_cons_self).postable.mp h)) detached posts
        rw [Atomic, he]
        exact iff_of_true huntouched (Or.inl ⟨p.1, rfl, hp⟩)

/-- A batch that awaits responses is all or nothing exactly when it is thrown back before
it posts, or its first item is, or every item can be posted and none of them is refused
under the empty id. -/
theorem batch_atomic_iff (W : World) (T : ObjectText V) (c : Pool V)
    (items : List (Pool.BatchItem V)) (o : PostOptions)
    (factory : Option (ℕ → Pool.BatchItem V → Except String String)) (detached : List ℕ) :
    Atomic c items (c.postBatch W T items { o with awaitResponse := true } factory detached) ↔
      ∀ ids, batchIds factory items = .ok ids →
        BatchOk W T c items { o with awaitResponse := true } ids detached := by
  have hwant : ({ o with awaitResponse := true } : PostOptions).wantResponse = true := rfl
  generalize ({ o with awaitResponse := true } : PostOptions) = o at hwant ⊢
  have hids : ∀ ids, batchIds factory items = .ok ids → ∀ l ∈ ids, l.length = items.length := by
    intro ids h l hl
    cases factory with
    | none =>
      cases h
      cases hl
    | some factory =>
      rw [batchIds] at h
      cases hc : correlationIds factory 0 items with
      | error e =>
        rw [hc] at h
        cases h
      | ok ids' =>
        rw [hc] at h
        cases h
        cases hl
        exact length_correlationIds hc
  have hone : ∀ ids, (∀ l ∈ ids, l.length = items.length) →
      (Atomic c items (c.postMessageBatch W T items o ids detached) ↔
        BatchOk W T c items o ids detached) := by
    intro ids hlen
    have hitems := batchPosts_items (o := o) hlen
    rcases postMessageBatch_opens (W := W) (T := T) hwant c items ids detached with
      ⟨hclosed, e, he⟩ | ⟨⟨hrunning, hopens⟩, he⟩
    · rw [Atomic, he]
      exact iff_of_true (Untouched.refl c) fun hrunning hopens => absurd ⟨hrunning, hopens⟩ hclosed
    · have heach := postEach_atomic_iff (W := W) (T := T) (c := c) detached
        fun p (hp : p ∈ batchPosts items o ids) => batchPosts_asks hwant hp
      rw [hitems] at heach
      rw [he, heach]
      exact ⟨fun h _ _ => h, fun h => h hrunning hopens⟩
  unfold Pool.postBatch
  by_cases hterminated : c.terminated = true
  · have hclosed (ids : Option (List String)) : BatchOk W T c items o ids detached := by
      intro hrunning
      rw [hterminated] at hrunning
      cases hrunning
    rw [if_pos (Or.inl hterminated)]
    refine iff_of_true ?_ fun ids _ => hclosed ids
    exact (hone none fun l hl => by cases hl).mpr (hclosed none)
  · rw [if_neg (by simp [hterminated, hwant])]
    cases hb : batchIds factory items with
    | error e => exact iff_of_true (Untouched.refl c) fun ids h => by cases h
    | ok ids =>
      rw [show (∀ ids', Except.ok ids = Except.ok ids' → BatchOk W T c items o ids' detached) ↔
        BatchOk W T c items o ids detached from
        ⟨fun h => h ids rfl, fun h ids' heq => Except.ok.inj heq ▸ h⟩]
      exact hone ids (hids ids hb)

/-- Two batches to a pool with one worker: the second item of one is no object, and the one
item of the other is refused under the empty id. -/
theorem batch_throws_and_strands :
    ¬ Atomic (.new .sound {} 1 1 1 0 : Pool (Option (List UInt8)))
        [(.object none, none), (.scalar 0, none)]
        (Pool.postBatch .sound idText (.new .sound {} 1 1 1 0)
          [(.object none, none), (.scalar 0, none)] { awaitResponse := true } none []) ∧
      ¬ Atomic (.new .sound {} 1 1 1 0 : Pool (Option (List UInt8))) [(.object none, none)]
        (Pool.postBatch .sound idText (.new .sound {} 1 1 1 0) [(.object none, none)]
          { awaitResponse := true, deadlineAt := some (.finite 0) } (some fun _ _ => .ok "") []) := by
  constructor
  · intro h
    have hasked := Untouched.asked h
    revert hasked
    decide +kernel
  · intro h
    have hasked := h.2.asked 0 le_rfl (by decide +kernel)
    revert hasked
    decide +kernel

end

end PerformanceHelpers.PowerPool
