import PerformanceHelpers.PowerPool.Steps

/- The workers of a `PowerPool` and the counters it keeps of their tasks
   (`src/helpers/powerPool.js`: `_dispatchToWorker`, `_postToWorkerObj`,
   `_decrementActiveTasks`, `_terminateWorker` and what calls them).

   Every event but a clock reading is a sequence of changes (`Change`), each to one
   counter, one worker or the list of workers. `step_changes` says so; the properties
   of the counters are then proved one change at a time. -/
namespace PerformanceHelpers.PowerPool

structure SameWork {V : Type} (c c' : Pool V) : Prop where
  workers : c'.workers = c.workers
  nextWorkerId : c'.nextWorkerId = c.nextWorkerId
  activeTasks : c'.activeTasks = c.activeTasks
  isIdle : c'.isIdle = c.isIdle
  busySince : c'.busySince = c.busySince
  busyTimeMs : c'.busyTimeMs = c.busyTimeMs
  now : c'.now = c.now
  idleReports : c'.idleReports = c.idleReports

/-- Which posts may go past the wrapper, by the tasks active, and which replies may come. -/
structure Permit (V : Type) where
  bypass : ℕ → Prop
  reply : Pool V → ℕ → Prop

structure Marks (f : Worker → Worker) : Prop where
  id : ∀ w, (f w).id = w.id
  tasks : ∀ w, (f w).tasks = w.tasks
  unanswered : ∀ w, (f w).unanswered = w.unanswered

inductive Change {V : Type} (W : World) (P : Permit V) : Pool V → Pool V → Prop where
  | same (c c' : Pool V) (h : SameWork c c') : Change W P c c'
  | mark (c : Pool V) (f : Worker → Worker) (hf : Marks f) :
      Change W P c { c with workers := c.workers.map f }
  | hire (c : Pool V) : Change W P c (c.tryAddWorker W).1
  | post (c : Pool V) (p : Post V) (key : Option String) (busy : Bool)
      (hin : ∃ w ∈ c.workers, w.id = p.worker) (hp : busy = false → P.bypass c.activeTasks) :
      Change W P c (c.recordPost p key busy)
  | reply (c : Pool V) (id : ℕ) (hin : ∃ w ∈ c.workers, w.id = id) (hr : P.reply c id) :
      Change W P c (c.countReply id)
  | halt (c : Pool V) (id : ℕ) (reason : String) : Change W P c (c.terminateWorker id reason)
  | leave (c : Pool V) (w : Worker) (ws : List Worker) (hperm : c.workers.Perm (w :: ws))
      (htasks : w.tasks = 0) : Change W P c { c with workers := ws }
  | empty (c : Pool V) (h : ∀ w ∈ c.workers, w.tasks = 0) :
      Change W P c { c with workers := [], activeTasks := 0 }
  | idle (c : Pool V) : Change W P c c.updateIdleState
  | observe (c : Pool V) : Change W P c c.observeIdle

abbrev Changes {V : Type} (W : World) (P : Permit V) : Pool V → Pool V → Prop :=
  Relation.ReflTransGen (Change W P)

structure Roster {V : Type} (c : Pool V) : Prop where
  ids : (c.workers.map (·.id)).Nodup
  given : ∀ w ∈ c.workers, w.id < c.nextWorkerId

section
variable {V : Type} {W : World} {T : ObjectText V} {P : Permit V} {c c' c'' : Pool V}

/-! ## What leaves the workers alone -/

namespace SameWork

theorem refl (c : Pool V) : SameWork c c := by constructor <;> rfl

theorem trans (h : SameWork c c') (h' : SameWork c' c'') : SameWork c c'' where
  workers := h'.workers.trans h.workers
  nextWorkerId := h'.nextWorkerId.trans h.nextWorkerId
  activeTasks := h'.activeTasks.trans h.activeTasks
  isIdle := h'.isIdle.trans h.isIdle
  busySince := h'.busySince.trans h.busySince
  busyTimeMs := h'.busyTimeMs.trans h.busyTimeMs
  now := h'.now.trans h.now
  idleReports := h'.idleReports.trans h.idleReports

theorem attempt (W : World) (c : Pool V) : SameWork c (c.attempt W).1 := by constructor <;> rfl

theorem cleanup (c : Pool V) (key : String) (s : Settlement) :
    SameWork c (c.cleanupPendingResponse key s) := by
  rw [cleanupPendingResponse_eq]
  constructor <;> rfl

theorem cleanupAll (keys : List String) (s : String → Settlement) (c : Pool V) :
    SameWork c (keys.foldl (fun c key => c.cleanupPendingResponse key (s key)) c) := by
  induction keys generalizing c with
  | nil => exact refl c
  | cons key keys ih => exact (cleanup c key (s key)).trans (ih _)

theorem rejectAllPending (c : Pool V) (error : String) : SameWork c (c.rejectAllPending error) := by
  have h := cleanupAll (c.pending.map (·.key)) (fun _ => .rejected error) c
  exact h.trans (by constructor <;> rfl)

theorem register (c : Pool V) (key : String) (o : PostOptions) : SameWork c (c.register key o) := by
  rw [register_eq]
  constructor <;> rfl

theorem refuse (c : Pool V) (waiter : Waiter) (s : Settlement) : SameWork c (c.refuse waiter s).1 := by
  rcases refuse_cases c waiter s with ⟨-, h⟩ | ⟨key, n, -, -, h⟩
  · rw [h]
    exact refl c
  · rw [h]
    exact cleanup c key s

theorem evict (c : Pool V) : SameWork c c.evict := by
  rcases evict_cases c with ⟨h, -⟩ | ⟨dropped, rest, pending, settled, -, h, -⟩
  · rw [h]
    exact refl c
  · rw [h]
    constructor <;> rfl

theorem evictMany (n : ℕ) (c : Pool V) : SameWork c (Pool.evictMany n c) := by
  induction n generalizing c with
  | zero => exact refl c
  | succ n ih => exact (evict c).trans (ih c.evict)

theorem reserveQueueSlots (c : Pool V) (n : ℕ) : SameWork c (c.reserveQueueSlots n).1 := by
  unfold Pool.reserveQueueSlots
  split
  · exact refl c
  · split
    · exact refl c
    · dsimp only
      split
      · exact evictMany _ c
      · exact refl c

theorem enqueue (c : Pool V) (item : QueueItem V) : SameWork c (c.enqueue item) := by
  constructor <;> rfl

theorem listenForAbort (c : Pool V) (signal : Option ℕ) (key : Option String) :
    SameWork c (c.listenForAbort signal key) := by
  unfold Pool.listenForAbort
  split
  · split
    · exact cleanup c _ _
    · constructor <;> rfl
  · exact refl c

theorem refuseAborted (c : Pool V) (o : PostOptions) (s : ℕ) : SameWork c (c.refuseAborted o s).1 := by
  unfold Pool.refuseAborted
  split
  · constructor <;> rfl
  · exact refl c

theorem correlationIdFor (c : Pool V) (o : PostOptions) : SameWork c (c.correlationIdFor o).1 := by
  obtain ⟨n, h⟩ := correlationIdFor_eq c o
  rw [h]
  constructor <;> rfl

theorem discard (c : Pool V) (item : QueueItem V) : SameWork c (c.discard item) := by
  obtain ⟨pending, settled, discards, h⟩ := discard_frame c item
  rw [h]
  constructor <;> rfl

theorem takeLive (shift : Pool V → List (QueueItem V) → Option (QueueItem V × List (QueueItem V)))
    (n : ℕ) (c : Pool V) : SameWork c (Pool.takeLive shift n c).1 := by
  induction n generalizing c with
  | zero => exact refl c
  | succ n ih =>
    rw [Pool.takeLive]
    split
    · exact refl c
    · next item rest hshift =>
      have hrest : SameWork c { c with queue := rest } := by constructor <;> rfl
      dsimp only
      split
      · exact hrest
      · exact (hrest.trans (discard _ item)).trans (ih _)

theorem takeTask (c : Pool V) (drain : Drain) : SameWork c (c.takeTask drain).1 := by
  have h := takeLive (Pool.shiftOf drain) c.queue.length c
  unfold Pool.takeTask
  dsimp only
  split
  · exact h
  · exact h.trans (by constructor <;> rfl)

theorem settleReply (c : Pool V) (correlationId : Option String) :
    SameWork c (c.settleReply correlationId) := by
  unfold Pool.settleReply
  split
  · exact refl c
  · exact cleanup c _ _

theorem abort (c : Pool V) (s : ℕ) : SameWork c (c.abort s) := by
  unfold Pool.abort
  split
  · exact refl c
  · dsimp only
    have hheard : SameWork c
        { c with aborted := s :: c.aborted, listeners := c.listeners.filter (·.1 ≠ s) } := by
      constructor <;> rfl
    exact hheard.trans (cleanupAll _ (fun _ => .aborted s) _)

theorem responseTimeout (c : Pool V) (n : ℕ) : SameWork c (c.responseTimeout n) := by
  unfold Pool.responseTimeout
  split
  · exact refl c
  · exact cleanup c _ _

end SameWork

theorem Changes.same (h : SameWork c c') : Changes W P c c' := .single (.same c c' h)

theorem Changes.idle (h : Changes W P c c') : Changes W P c c'.updateIdleState := h.tail (.idle c')

/-! ## Who is on the list -/

def Employs (c : Pool V) (id : ℕ) : Prop := ∃ w ∈ c.workers, w.id = id

variable {least : Option Worker} {id : ℕ} {f : Worker → Worker} {w : Worker}

theorem employs_iff : Employs c id ↔ id ∈ c.workers.map (·.id) := by
  simp [Employs]

theorem employs_worker? (h : c.worker? id = some w) : Employs c id :=
  ⟨w, List.mem_of_find?_eq_some h, by simpa using List.find?_some h⟩

theorem ids_updateWorker (c : Pool V) (id : ℕ) (hf : ∀ w, (f w).id = w.id) :
    (c.updateWorker id f).workers.map (·.id) = c.workers.map (·.id) := by
  unfold Pool.updateWorker
  rw [List.map_map]
  apply List.map_congr_left
  intro w _
  simp only [Function.comp_apply]
  split
  · exact hf w
  · rfl

theorem workers_closeBusyInterval (c : Pool V) (before after : ℕ) :
    (c.closeBusyInterval before after).workers = c.workers := by
  obtain ⟨busySince, busyTimeMs, h⟩ := closeBusyInterval_eq c before after
  rw [h]

theorem ids_recordPost (c : Pool V) (p : Post V) (key : Option String) (busy : Bool) :
    (c.recordPost p key busy).workers.map (·.id) = c.workers.map (·.id) := by
  have h := ids_updateWorker c p.worker (f := fun w =>
    { w with
      tasks := w.tasks + 1
      unanswered := w.unanswered + 1
      startTimes := w.startTimes ++ [c.now]
      lastActive := c.now }) fun _ => rfl
  unfold Pool.recordPost
  dsimp only
  split
  · rw [workers_closeBusyInterval]
    exact h
  · exact h

theorem ids_dispatchToWorker (c : Pool V) (id : ℕ) (prepared : Prepared V) (key : Option String)
    (signal : Option ℕ) (viaQueue : Bool) (origin : Origin V) :
    (c.dispatchToWorker W T id prepared key signal viaQueue origin).1.workers.map (·.id) =
      c.workers.map (·.id) := by
  unfold Pool.dispatchToWorker
  dsimp only
  split
  · rw [(SameWork.listenForAbort _ signal key).workers, ids_recordPost]
    rfl
  · rfl

theorem employs_head (h : c.workers.head? = some w) : Employs c w.id :=
  ⟨w, List.mem_of_mem_head? h, rfl⟩

theorem employs_hired (h : (c.tryAddWorker W).2 = some id) :
    Employs (c.tryAddWorker W).1 id := by
  unfold Pool.tryAddWorker at h ⊢
  split at h
  · next hcreates =>
    rw [if_pos hcreates]
    cases h
    exact ⟨c.newWorker, List.mem_append_right _ (List.mem_singleton_self _), rfl⟩
  · cases h

theorem activeTasks_tryAddWorker (c : Pool V) : (c.tryAddWorker W).1.activeTasks = c.activeTasks := by
  unfold Pool.tryAddWorker
  split <;> rfl

/-! ## A task to a worker -/

theorem marks_refreshReady (c : Pool V) :
    Marks fun w => if c.PastGate w then { w with ready := true } else w := by
  constructor <;> intro w <;> split <;> rfl

theorem marks_update (hf : Marks f) (id : ℕ) :
    Marks fun w => if w.id = id then f w else w := by
  constructor
  · intro w
    split
    · exact hf.id w
    · rfl
  · intro w
    split
    · exact hf.tasks w
    · rfl
  · intro w
    split
    · exact hf.unanswered w
    · rfl

theorem refreshReady_changes (c : Pool V) : Changes W P c c.refreshReady :=
  .single (.mark c _ (marks_refreshReady c))

theorem updateWorker_changes (c : Pool V) (id : ℕ) (hf : Marks f) :
    Changes W P c (c.updateWorker id f) := .single (.mark c _ (marks_update hf id))

theorem dispatchToWorker_changes (hin : Employs c id) (prepared : Prepared V)
    (key : Option String) (signal : Option ℕ) (viaQueue : Bool) (origin : Origin V) :
    Changes W P c (c.dispatchToWorker W T id prepared key signal viaQueue origin).1 := by
  have hattempt : Changes W P c (c.attempt W).1 := .same (SameWork.attempt W c)
  unfold Pool.dispatchToWorker
  dsimp only
  split
  · have hpost : Change W P (c.attempt W).1 ((c.attempt W).1.recordPost (c.postTo id
        (wrapperMessage T (dispatchedItem T c.messageCodec prepared).message) viaQueue origin) key true) :=
      .post _ _ key true hin fun h => by cases h
    exact (hattempt.tail hpost).trans (Changes.same (SameWork.listenForAbort _ signal key))
  · exact hattempt

theorem idle_changes (h : Changes W P c c') :
    Changes W P c (if c'.isIdle then c'.updateIdleState else c') := by
  split
  · exact h.idle
  · exact h

theorem postToWorkerObj_changes (hin : Employs c id) (prepared : Prepared V)
    (waiter : Waiter) (signal : Option ℕ) (origin : Origin V) (detached : List ℕ)
    (hby : W.accepts c.attempts = true →
      canBypassWrapper detached (c.encodeFor T id prepared) = true → P.bypass c.activeTasks) :
    Changes W P c (c.postToWorkerObj W T id prepared waiter signal origin detached).1 := by
  have hattempt : Changes W P c (c.attempt W).1 := .same (SameWork.attempt W c)
  unfold Pool.postToWorkerObj
  dsimp only
  split
  · next hpasses =>
    split
    · next haccepts =>
      have hpost : Change W P (c.attempt W).1 ((c.attempt W).1.recordPost
          (c.postTo id (c.encodeFor T id prepared).message false origin) (waiter.map (·.1)) false) :=
        .post _ _ _ false hin fun _ => hby haccepts hpasses
      exact idle_changes (hattempt.tail hpost)
    · exact hattempt.trans (Changes.same (SameWork.refuse _ waiter _))
  · have hdispatch := dispatchToWorker_changes (W := W) (T := T) (P := P) hin (c.encodeFor T id prepared)
      (waiter.map (·.1)) signal false origin
    split
    · exact idle_changes hdispatch
    · exact hdispatch.trans (Changes.same (SameWork.refuse _ waiter _))

/-! ## A post -/

def RouteFound (c : Pool V) : Pool.PostRoute → Prop
  | .worker id | .fallback id => Employs c id
  | .refuse _ | .queue | .grow => True

def RouteBypasses (T : ObjectText V) (c : Pool V) (prepared : Prepared V) (detached : List ℕ) :
    Pool.PostRoute → Prop
  | .refuse _ | .queue => False
  | .worker id | .fallback id => canBypassWrapper detached (c.encodeFor T id prepared) = true
  | .grow => canBypassWrapper detached (c.addWorkerInstance.encodeFor T c.nextWorkerId prepared) = true

theorem native_refreshReady (c : Pool V) (id : ℕ) :
    (c.refreshReady.worker? id).any (·.native) = (c.worker? id).any (·.native) := by
  have hfind : c.refreshReady.worker? id =
      (c.worker? id).map fun w => if c.PastGate w then { w with ready := true } else w := by
    unfold Pool.worker? Pool.refreshReady
    dsimp only
    rw [List.find?_map]
    congr 2
    funext w
    simp only [Function.comp_apply]
    split <;> rfl
  rw [hfind]
  cases c.worker? id with
  | none => rfl
  | some w =>
    simp only [Option.map_some, Option.any_some]
    split <;> rfl

theorem encodeFor_advance (c : Pool V) (id : ℕ) (prepared : Prepared V) :
    c.advance.encodeFor T id prepared = c.encodeFor T id prepared :=
  congrArg (fun native => encodeForWorker T c.messageCodec c.nativeCloneAvailable native prepared)
    (native_refreshReady c id)

theorem advance_changes (c : Pool V) : Changes W P c c.advance :=
  (refreshReady_changes c).trans (Changes.same (by constructor <;> rfl))

theorem enqueueOrReject_changes (c : Pool V) (prepared : Prepared V) (waiter : Waiter)
    (deadlineAt : Option ℚ) (o : PostOptions) (origin : Origin V) :
    Changes W P c (c.enqueueOrReject prepared waiter deadlineAt o origin).1 := by
  rcases enqueueOrReject_cases c prepared waiter deadlineAt o origin with
    ⟨-, -, h⟩ | ⟨-, -, h⟩ | ⟨-, e, h⟩
  · rw [h]
    exact (Changes.same ((SameWork.evict c).trans (SameWork.enqueue _ _))).idle
  · rw [h]
    exact (Changes.same (SameWork.enqueue c _)).idle
  · rw [h]
    exact .same (SameWork.refuse c waiter _)

theorem takeRoute_changes {route : Pool.PostRoute} (hfound : RouteFound c route) (prepared : Prepared V)
    (waiter : Waiter) (deadlineAt : Option ℚ) (o : PostOptions) (origin : Origin V)
    (detached : List ℕ)
    (hby : ¬ Unserved W c route → RouteBypasses T c prepared detached route → P.bypass c.activeTasks) :
    Changes W P c (c.takeRoute W T route prepared waiter deadlineAt o origin detached).1 := by
  cases route with
  | refuse error => exact .same (SameWork.refuse c waiter _)
  | queue => exact enqueueOrReject_changes c prepared waiter deadlineAt o origin
  | worker id =>
    refine postToWorkerObj_changes hfound prepared waiter o.signal origin detached fun haccepts => ?_
    exact hby fun hun => by rw [show W.accepts c.attempts = false from hun] at haccepts; cases haccepts
  | fallback id =>
    have hin : Employs c.advance id := by
      obtain ⟨w, hw, rfl⟩ := hfound
      refine ⟨_, List.mem_map_of_mem hw, ?_⟩
      split <;> rfl
    refine (advance_changes c).trans
      (postToWorkerObj_changes hin prepared waiter none origin detached fun haccepts hpasses => ?_)
    rw [encodeFor_advance] at hpasses
    refine hby (fun hun => ?_) hpasses
    rw [show W.accepts c.advance.attempts = false from hun] at haccepts
    cases haccepts
  | grow =>
    unfold Pool.takeRoute Pool.tryGrowPool
    dsimp only
    have hhired : Changes W P c (c.tryAddWorker W).1 := .single (.hire c)
    split
    · exact hhired.trans (Changes.same (SameWork.refuse _ waiter _))
    · next id hid =>
      refine hhired.trans (postToWorkerObj_changes (employs_hired hid) prepared waiter o.signal origin
        detached fun haccepts hpasses => ?_)
      rw [activeTasks_tryAddWorker]
      cases hcreates : W.creates c.nextWorkerId with
      | false =>
        unfold Pool.tryAddWorker at hid
        rw [hcreates] at hid
        cases hid
      | true =>
        rw [tryAddWorker_created W hcreates] at hid haccepts hpasses
        cases hid
        refine hby (fun hun => ?_) hpasses
        rcases hun with hun | hun
        · rw [hcreates] at hun
          cases hun
        · rw [show W.accepts c.attempts = true from haccepts] at hun
          cases hun

theorem findLeastLoadedWorker_mem {ws : List Worker}
    (h : Pool.findLeastLoadedWorker ws = some w) : w ∈ ws := by
  cases ws with
  | nil => cases h
  | cons v ws =>
    have hfold (ws : List Worker) (best : Worker) :
        ws.foldl (fun best w => if Pool.lessLoaded w best then w else best) best = best ∨
          ws.foldl (fun best w => if Pool.lessLoaded w best then w else best) best ∈ ws := by
      induction ws generalizing best with
      | nil => exact Or.inl rfl
      | cons u ws ih =>
        rw [List.foldl_cons]
        rcases ih (if Pool.lessLoaded u best then u else best) with heq | hmem
        · rw [heq]
          split
          · exact Or.inr List.mem_cons_self
          · exact Or.inl rfl
        · exact Or.inr (List.mem_cons_of_mem u hmem)
    obtain rfl := Option.some.inj h
    rcases hfold ws v with heq | hmem
    · rw [heq]
      exact List.mem_cons_self
    · exact List.mem_cons_of_mem v hmem

theorem readyWorkers_sub (c : Pool V) : ∀ w ∈ c.readyWorkers, w ∈ c.workers := by
  unfold Pool.readyWorkers
  split
  · exact fun w hw => hw
  · exact fun w hw => (List.mem_filter.mp hw).1

theorem leastFor_changes (c : Pool V) (target : Option ℕ) : Changes W P c (c.leastFor W target).1 := by
  unfold Pool.leastFor
  split
  · exact .refl
  · split
    · exact .refl
    · unfold Pool.selectWorker
      dsimp only
      have hready : Changes W P c c.refreshReady := refreshReady_changes c
      repeat' split
      · exact .refl
      · exact hready
      · exact hready
      · exact hready.trans (Changes.same (by constructor <;> rfl))

theorem leastFor_mem (c : Pool V) (target : Option ℕ) :
    ∀ w ∈ (c.leastFor W target).2, w ∈ (c.leastFor W target).1.workers := by
  intro w hw
  unfold Pool.leastFor at hw ⊢
  split at hw
  · exact List.mem_of_find?_eq_some hw
  · split at hw
    · next hsingle =>
      rw [if_pos hsingle]
      exact List.mem_of_mem_head? hw
    · next hsingle =>
      rw [if_neg hsingle]
      unfold Pool.selectWorker at hw ⊢
      dsimp only at hw ⊢
      split at hw
      · cases hw
      · next hsome =>
        rw [if_neg hsome]
        split at hw
        · cases hw
        · next hready =>
          rw [if_neg hready]
          split at hw
          · next hnone =>
            rw [if_pos hnone]
            exact readyWorkers_sub _ _ (findLeastLoadedWorker_mem hw)
          · next hbalanced =>
            rw [if_neg hbalanced]
            cases hb : c.refreshReady.balanced W with
            | some v =>
              rw [hb] at hw
              cases hw
              obtain ⟨id, -, hfind⟩ := Option.bind_eq_some_iff.mp hb
              exact List.mem_of_find?_eq_some hfind
            | none =>
              rw [hb] at hw
              exact findLeastLoadedWorker_mem hw

theorem routeOf_found {target : Option ℕ}
    (h : ∀ w ∈ least, w ∈ c.workers) : RouteFound c (c.routeOf least target) := by
  unfold Pool.routeOf
  split
  · split <;> exact trivial
  · split
    · next w hw => exact ⟨w, h w (Option.filter_eq_some_iff.mp hw).1, rfl⟩
    · repeat' split
      · exact trivial
      · exact trivial
      · exact trivial
      · exact trivial
      · next w hw =>
        have hmem : w ∈ c.refreshReady.workers := readyWorkers_sub _ _ (List.mem_of_getElem? hw)
        obtain ⟨v, hv, rfl⟩ := List.mem_map.mp hmem
        refine ⟨v, hv, ?_⟩
        split <;> rfl

theorem postFor_changes (hleast : ∀ w ∈ least, w ∈ c.workers) (m : Message V)
    (tr : TransferList) (waiter : Waiter) (deadlineAt : Option ℚ) (o : PostOptions)
    (detached : List ℕ)
    (hby : ¬ Refuses W c least deadlineAt o →
      RouteBypasses T c (prepareForTransfer T c.messageCodec m tr o.zeroCopy) detached
        (c.routeOf least o.workerId) → P.bypass c.activeTasks) :
    Changes W P c (c.postFor W T least m tr waiter deadlineAt o detached).1 := by
  unfold Pool.postFor
  split
  · exact .same (SameWork.refuse c waiter _)
  · next hdead =>
    refine takeRoute_changes (routeOf_found hleast) _ waiter deadlineAt o _ detached fun hserved => ?_
    exact hby fun hrefuses => hrefuses.elim (fun h => hdead (by simpa [Option.any_eq_true] using h)) hserved

/-- A correlation id makes no difference to which way a message goes. -/
theorem bypass_withCorrelationId (codec : PoolCodec) (available native : Bool) (m : Message V) (id : String)
    (tr : TransferList) (zeroCopy : Bool) (detached : List ℕ) :
    canBypassWrapper detached (encodeForWorker T codec available native
        (prepareForTransfer T codec (Pool.withCorrelationId T m id) tr zeroCopy)) =
      canBypassWrapper detached (encodeForWorker T codec available native
        (prepareForTransfer T codec m tr zeroCopy)) := by
  cases m with
  | object v =>
    cases zeroCopy with
    | true => rfl
    | false => cases codec <;> cases available <;> cases native <;> rfl
  | _ => rfl

theorem routeBypasses_withCorrelationId (c : Pool V) (m : Message V) (id : String) (tr : TransferList)
    (zeroCopy : Bool) (detached : List ℕ) (route : Pool.PostRoute) :
    RouteBypasses T c (prepareForTransfer T c.messageCodec (Pool.withCorrelationId T m id) tr zeroCopy)
        detached route ↔
      RouteBypasses T c (prepareForTransfer T c.messageCodec m tr zeroCopy) detached route := by
  have hone (native : Bool) := bypass_withCorrelationId (T := T) c.messageCodec c.nativeCloneAvailable
    native m id tr zeroCopy detached
  cases route with
  | refuse error | queue => exact Iff.rfl
  | worker id' | fallback id' | grow => exact iff_of_eq (congrArg (· = true) (hone _))

/-- Which way a message goes is a matter of the workers and the options. -/
theorem routeBypasses_congr (h : SameWork c c') (hconfig : c'.toConfig = c.toConfig)
    (prepared : Prepared V) (detached : List ℕ) (route : Pool.PostRoute) :
    RouteBypasses T c' prepared detached route ↔ RouteBypasses T c prepared detached route := by
  have hcodec : c'.messageCodec = c.messageCodec := congrArg Config.messageCodec hconfig
  have havailable : c'.nativeCloneAvailable = c.nativeCloneAvailable :=
    congrArg Config.nativeCloneAvailable hconfig
  have hready : c'.readyField = c.readyField := congrArg Config.readyField hconfig
  have hone (id : ℕ) : c'.encodeFor T id prepared = c.encodeFor T id prepared := by
    unfold Pool.encodeFor Pool.worker?
    rw [hcodec, havailable, h.workers]
  have hnew : c'.newWorker = c.newWorker := by
    unfold Pool.newWorker
    rw [h.nextWorkerId, h.now, hready]
  have hgrown (id : ℕ) :
      c'.addWorkerInstance.encodeFor T id prepared = c.addWorkerInstance.encodeFor T id prepared := by
    unfold Pool.encodeFor Pool.worker? Pool.addWorkerInstance
    dsimp only
    rw [hcodec, havailable, h.workers, hnew]
  cases route with
  | refuse error | queue => exact Iff.rfl
  | worker id | fallback id => exact iff_of_eq (by rw [RouteBypasses, RouteBypasses, hone])
  | grow => exact iff_of_eq (by rw [RouteBypasses, RouteBypasses, h.nextWorkerId, hgrown])

def Bypasses (W : World) (T : ObjectText V) : PostCondition V := fun c m tr o detached =>
  ∃ deadlineAt, Enters c m o deadlineAt ∧
    ¬ Refuses W (c.leastFor W o.workerId).1 (c.leastFor W o.workerId).2 deadlineAt o ∧
      RouteBypasses T (c.leastFor W o.workerId).1 (prepareForTransfer T c.messageCodec m tr o.zeroCopy)
        detached ((c.leastFor W o.workerId).1.routeOf (c.leastFor W o.workerId).2 o.workerId)

theorem activeTasks_leastFor (c : Pool V) (target : Option ℕ) :
    (c.leastFor W target).1.activeTasks = c.activeTasks := by
  unfold Pool.leastFor
  split
  · rfl
  · split
    · rfl
    · unfold Pool.selectWorker
      dsimp only
      repeat' split
      all_goals rfl

theorem postRequest_changes (hleast : ∀ w ∈ least, w ∈ c.workers) (m : Message V)
    (tr : TransferList) (deadlineAt : Option ℚ) (o : PostOptions) (detached : List ℕ)
    (hby : m.isPlainObject = true → ¬ Refuses W c least deadlineAt o →
      RouteBypasses T c (prepareForTransfer T c.messageCodec m tr o.zeroCopy) detached
        (c.routeOf least o.workerId) → P.bypass c.activeTasks) :
    Changes W P c (c.postRequest W T least m tr deadlineAt o detached).1 := by
  have hrefuses := refuses_register W c least deadlineAt o
  have hid := SameWork.correlationIdFor c o
  have hreg := hid.trans (SameWork.register (c.correlationIdFor o).1 (c.correlationIdFor o).2 o)
  have hconfig : ((c.correlationIdFor o).1.register (c.correlationIdFor o).2 o).toConfig = c.toConfig := by
    rw [register_eq]
    exact (SameTasks.correlationIdFor c o).config
  have hroute : ((c.correlationIdFor o).1.register (c.correlationIdFor o).2 o).routeOf least o.workerId =
      c.routeOf least o.workerId := by
    obtain ⟨n, hn⟩ := correlationIdFor_eq c o
    rw [routeOf_register, hn]
    rfl
  unfold Pool.postRequest
  dsimp only
  split
  · next hplain =>
    generalize ((c.correlationIdFor o).1.register (c.correlationIdFor o).2 o) = d at *
    refine (Changes.same hreg).trans
      (postFor_changes (hreg.workers ▸ hleast) _ tr _ deadlineAt o detached fun hserved hpasses => ?_)
    rw [hreg.activeTasks]
    rw [routeBypasses_withCorrelationId, hroute, routeBypasses_congr hreg hconfig,
      show d.messageCodec = c.messageCodec from congrArg Config.messageCodec hconfig] at hpasses
    exact hby hplain (fun h => hserved (hrefuses.mpr h)) hpasses
  · exact .same hid

/-- A post, where it may go past the wrapper if it does. -/
theorem postMessageInner_changes (c : Pool V) (m : Message V) (tr : TransferList) (o : PostOptions)
    (detached : List ℕ) (hby : Bypasses W T c m tr o detached → P.bypass c.activeTasks) :
    Changes W P c (c.postMessageInner W T m tr o detached).1 := by
  have hleast : Changes W P c (c.leastFor W o.workerId).1 := leastFor_changes c o.workerId
  have hmem := leastFor_mem (W := W) c o.workerId
  have hcodec : (c.leastFor W o.workerId).1.messageCodec = c.messageCodec :=
    congrArg Config.messageCodec (SameTasks.leastFor W c o.workerId).config
  unfold Pool.postMessageInner
  split
  · exact .refl
  · next hrunning =>
    split
    · exact .refl
    · next deadlineAt hdeadline =>
      dsimp only
      split
      · exact hleast.trans (Changes.same (SameWork.refuseAborted _ o _))
      · next hs =>
        have hsignal : ∀ s ∈ o.signal, s ∉ c.aborted := by
          intro s hsig hab
          have hnot := Option.filter_eq_none_iff.mp hs s hsig
          simp [hab] at hnot
        have hpermitted (hplain : o.wantResponse = true → m.isPlainObject = true)
            (hserved : ¬ Refuses W (c.leastFor W o.workerId).1 (c.leastFor W o.workerId).2 deadlineAt o)
            (hpasses : RouteBypasses T (c.leastFor W o.workerId).1
              (prepareForTransfer T (c.leastFor W o.workerId).1.messageCodec m tr o.zeroCopy) detached
              ((c.leastFor W o.workerId).1.routeOf (c.leastFor W o.workerId).2 o.workerId)) :
            P.bypass (c.leastFor W o.workerId).1.activeTasks := by
          rw [activeTasks_leastFor]
          rw [hcodec] at hpasses
          exact hby ⟨deadlineAt, ⟨by simpa using hrunning, hdeadline, hsignal, hplain⟩, hserved, hpasses⟩
        split
        · exact hleast.trans (postRequest_changes hmem m tr deadlineAt o detached
            fun hplain => hpermitted fun _ => hplain)
        · next hwant =>
          exact hleast.trans (postFor_changes hmem m tr none deadlineAt o detached
            (hpermitted fun h => absurd h hwant))

/-! ## A batch that awaits nothing -/

theorem employs_roomAt {id' : ℕ} (h : c.roomAt id = some id') : Employs c id' := by
  obtain ⟨w, hw, rfl⟩ := Option.map_eq_some_iff.mp h
  exact ⟨w, List.mem_of_find?_eq_some (Option.filter_eq_some_iff.mp hw).1, rfl⟩

variable {b : Pool.Batch V} {o : PostOptions}

section
variable (h : Changes W P c b.pool)
include h

theorem batchDispatch_changes (hin : Employs b.pool id)
    (prepared : Prepared V) (origin : Origin V) :
    Changes W P c (b.dispatch W T id prepared origin).pool := by
  have hdispatch := h.trans (dispatchToWorker_changes (W := W) (T := T) (P := P) hin prepared none none
    false origin)
  unfold Pool.Batch.dispatch
  dsimp only
  split <;> exact hdispatch

theorem batchSaturated_changes (prepared : Prepared V) (o : PostOptions)
    (origin : Origin V) : Changes W P c (b.saturated W T prepared o origin).pool := by
  unfold Pool.Batch.saturated
  split
  · exact h
  · split
    · split
      · exact h
      · split
        · exact h.trans (Changes.same (SameWork.evict b.pool))
        · exact h
    · split
      · exact h
      · next w hw =>
        have hturn : SameWork b.pool
            { b.pool with nextIndex := (b.pool.nextIndex + 1) % b.pool.workers.length } := by
          constructor <;> rfl
        have hin : Employs { b.pool with
            nextIndex := (b.pool.nextIndex + 1) % b.pool.workers.length } w.id :=
          ⟨w, List.mem_of_getElem? hw, rfl⟩
        have hdispatch := (h.trans (Changes.same hturn)).trans
          (dispatchToWorker_changes (W := W) (T := T) (P := P) hin prepared none none false origin)
        dsimp only
        split <;> exact hdispatch

theorem batchStep_changes (prepared : Prepared V) (o : PostOptions)
    (origin : Origin V) : Changes W P c (b.step W T prepared o origin).pool := by
  unfold Pool.Batch.step
  split
  · split <;> exact h
  · dsimp only
    split
    · next id hleast =>
      obtain ⟨id', -, hroom⟩ := Option.bind_eq_some_iff.mp hleast
      exact batchDispatch_changes (b := { b with chosen := b.chosen.bind b.pool.roomAt }) h
        (employs_roomAt hroom) prepared origin
    · split
      · have hhired := h.tail (.hire b.pool)
        split
        · exact hhired
        · next id hid =>
          exact batchDispatch_changes (b := { b with
            pool := (b.pool.tryAddWorker W).1, chosen := b.chosen.bind b.pool.roomAt }) hhired
            (employs_hired hid) prepared origin
      · exact batchSaturated_changes (b := { b with chosen := b.chosen.bind b.pool.roomAt }) h prepared o
          origin

theorem batchLoop_changes (items : List (Pool.BatchItem V)) :
    Changes W P c (Pool.batchLoop W T o b items).pool := by
  unfold Pool.batchLoop
  induction items generalizing b with
  | nil => exact h
  | cons it items ih => exact ih (batchStep_changes h _ o _)

theorem singleLoop_changes (hin : Employs b.pool id)
    (items : List (Pool.BatchItem V)) : Changes W P c (Pool.singleLoop W T id o b items).pool := by
  unfold Pool.singleLoop
  induction items generalizing b with
  | nil => exact h
  | cons it items ih =>
    rw [List.foldl_cons]
    apply ih
    · exact h.trans (dispatchToWorker_changes hin _ none none false _)
    · rw [employs_iff] at hin ⊢
      dsimp only [Pool.Batch.answer]
      rw [ids_dispatchToWorker]
      exact hin

theorem batchEnqueue_changes : Changes W P c b.enqueue.pool := by
  unfold Pool.Batch.enqueue
  split
  · exact h
  · dsimp only
    have hreserved := h.trans (Changes.same (SameWork.reserveQueueSlots b.pool b.queuedPrepared.length))
    split
    · exact hreserved
    · exact hreserved.trans (Changes.same (by constructor <;> rfl))

theorem batchFinish_changes : Changes W P c b.finish.1 := by
  unfold Pool.Batch.finish
  dsimp only
  split
  · exact h.idle
  · exact h

end

theorem fireAndForget_changes (c : Pool V) (items : List (Pool.BatchItem V)) (o : PostOptions) :
    Changes W P c (c.fireAndForget W T items o).1 := by
  unfold Pool.fireAndForget
  dsimp only
  split
  · split
    · exact .refl
    · next w _ =>
      exact batchFinish_changes (batchEnqueue_changes
        (batchLoop_changes (b := ⟨c, some w.id, _, [], [], false⟩) .refl items))
  · split
    · next w hw =>
      have hin : Employs c w.id := employs_head (Option.filter_eq_some_iff.mp hw).1
      exact batchFinish_changes (singleLoop_changes (b := ⟨c, none, _, [], [], false⟩) .refl hin items)
    · exact batchFinish_changes (batchEnqueue_changes
        (batchLoop_changes (b := ⟨c, _, _, [], [], false⟩) .refl items))

/-! ## Draining -/

theorem ids_serve (c : Pool V) (drain : Drain) (id : ℕ) :
    (c.serve W T drain id).1.workers.map (·.id) = c.workers.map (·.id) := by
  have h := (SameWork.takeTask c drain).workers
  unfold Pool.serve
  dsimp only
  split
  · rw [h]
  · dsimp only [Pool.dispatchItem]
    rw [ids_dispatchToWorker, h]

theorem serve_changes (hin : Employs c id) (drain : Drain) :
    Changes W P c (c.serve W T drain id).1 := by
  have h := SameWork.takeTask c drain
  have hin' : Employs (c.takeTask drain).1 id := by
    unfold Employs
    rw [h.workers]
    exact hin
  unfold Pool.serve
  dsimp only
  split
  · exact .same h
  · exact (Changes.same h).trans (dispatchToWorker_changes hin' _ _ _ true _)

theorem inlineDrain_changes (c : Pool V) (id : ℕ) : Changes W P c (c.inlineDrain W T id) := by
  unfold Pool.inlineDrain
  split
  · exact .refl
  · next w hw => exact serve_changes (employs_worker? (Option.filter_eq_some_iff.mp hw).1) .inline

/-- A drain so far: changes, and the same workers. -/
def Drained (W : World) (P : Permit V) (c c' : Pool V) : Prop :=
  Changes W P c c' ∧ c'.workers.map (·.id) = c.workers.map (·.id)

theorem Drained.employs (h : Drained W P c c') (hin : Employs c id) : Employs c' id := by
  rw [employs_iff] at hin ⊢
  rw [h.2]
  exact hin

theorem fillWorker_drained (hin : Employs c id) (n : ℕ) (slots : Option ℕ)
    {d : Pool.Dispatching V} (h : Drained W P c d.pool) :
    Drained W P c (Pool.fillWorker W T id n slots d).pool := by
  induction n generalizing slots d with
  | zero => exact h
  | succ n ih =>
    have hserved : Drained W P c (d.pool.serve W T .dispatch id).1 :=
      ⟨h.1.trans (serve_changes (h.employs hin) .dispatch), (ids_serve d.pool .dispatch id).trans h.2⟩
    rw [Pool.fillWorker]
    split
    · exact h
    · dsimp only
      split
      · exact ih _ hserved
      · exact hserved

theorem workerTurns_drained (ws : List Worker) (hws : ∀ w ∈ ws, Employs c w.id)
    {d : Pool.Dispatching V} (h : Drained W P c d.pool) :
    Drained W P c (ws.foldl (Pool.workerTurn W T) d).pool := by
  induction ws generalizing d with
  | nil => exact h
  | cons w ws ih =>
    exact ih (fun v hv => hws v (List.mem_cons_of_mem w hv))
      (fillWorker_drained (hws w List.mem_cons_self) _ _ h)

theorem dispatchQueuedTasks_changes (c : Pool V) : Changes W P c (c.dispatchQueuedTasks W T) := by
  unfold Pool.dispatchQueuedTasks
  split
  · exact .refl
  · dsimp only
    have hready : Changes W P c c.refreshReady := refreshReady_changes c
    have hturns := workerTurns_drained (W := W) (T := T) (P := P) (c := c.refreshReady)
      c.refreshReady.readyWorkers (fun w hw => ⟨w, readyWorkers_sub _ w hw, rfl⟩)
      (d := ⟨c.refreshReady,
        c.refreshReady.adaptiveLimitNow.map (· - c.refreshReady.activeTasks), false⟩) ⟨.refl, rfl⟩
    split
    · exact Changes.idle (hready.trans hturns.1)
    · exact hready.trans hturns.1

/-! ## A worker's messages -/

theorem recordLatency_changes (c : Pool V) (id : ℕ) (duration : Option ℚ) :
    Changes W P c (c.recordLatency id duration) := by
  unfold Pool.recordLatency
  split
  · exact updateWorker_changes c id (by constructor <;> exact fun _ => rfl)
  · next x _ =>
    refine (updateWorker_changes c id (f := fun w =>
      { w with
        startTimes := w.startTimes.tail
        latencyEwma := some (c.smooth x w.latencyEwma)
        everCompletedTask := true }) (by constructor <;> exact fun _ => rfl)).trans ?_
    exact Changes.same (by constructor <;> rfl)

def Counts (c : Pool V) (id : ℕ) : Inbound → Prop
  | .announce _ => False
  | .data ready _ _ => ∃ w ∈ c.worker? id, ¬ (c.readyField.isSome = true ∧ w.ready = false ∧ ready = true)

instance (c : Pool V) (id : ℕ) (message : Inbound) : Decidable (Counts c id message) :=
  match message with
  | .announce _ => isFalse False.elim
  | .data ready _ _ => inferInstanceAs (Decidable (∃ w ∈ c.worker? id,
      ¬ (c.readyField.isSome = true ∧ w.ready = false ∧ ready = true)))
theorem handleMessage_changes (c : Pool V) (id : ℕ) (message : Inbound)
    (hreply : Counts c id message → P.reply c id) :
    Changes W P c (c.handleMessage W T id message) := by
  unfold Pool.handleMessage
  split
  · exact .refl
  · next w hw =>
    split
    · exact updateWorker_changes c id (by constructor <;> exact fun _ => rfl)
    · next ready correlationId duration =>
      split
      · exact (updateWorker_changes c id (by constructor <;> exact fun _ => rfl)).trans
          (dispatchQueuedTasks_changes _)
      · next hready =>
        unfold Pool.onmessage
        have hcounted : Changes W P c (c.countReply id) :=
          .single (.reply c id (employs_worker? hw) (hreply ⟨w, hw, hready⟩))
        have hsettled := hcounted.trans (Changes.same (SameWork.settleReply _ correlationId))
        have hdrained := (hsettled.trans (recordLatency_changes _ id duration)).trans
          (inlineDrain_changes (T := T) _ id)
        exact Changes.idle hdrained

/-! ## Each change -/

section
variable (c : Pool V)

theorem updateIdleState_eq :
    ∃ isIdle reports, c.updateIdleState = { c with isIdle, idleReports := c.idleReports ++ reports } ∧
      (reports = [] ∨ c.activeTasks = 0 ∧ c.queue = [] ∧ reports = [(c.totalTasks, c.queue.length)]) := by
  unfold Pool.updateIdleState
  dsimp only
  split
  · next h => exact ⟨true, [(c.totalTasks, c.queue.length)], rfl, Or.inr ⟨h.1.1, h.1.2, rfl⟩⟩
  · split
    · exact ⟨false, [], by rw [List.append_nil], Or.inl rfl⟩
    · exact ⟨c.isIdle, [], by rw [List.append_nil], Or.inl rfl⟩

theorem observeIdle_eq :
    ∃ reports, c.observeIdle = { c with idleReports := c.idleReports ++ reports } ∧
      (reports = [] ∨ c.activeTasks = 0 ∧ c.queue = [] ∧ reports = [(c.totalTasks, c.queue.length)]) := by
  unfold Pool.observeIdle
  split
  · next h => exact ⟨[(c.totalTasks, c.queue.length)], rfl, Or.inr ⟨h.1, h.2, rfl⟩⟩
  · exact ⟨[], by rw [List.append_nil], Or.inl rfl⟩

theorem decrementActiveTasks_eq (n : ℕ) :
    ∃ busySince busyTimeMs, c.decrementActiveTasks n =
      { c with activeTasks := c.activeTasks - n, busySince, busyTimeMs } :=
  closeBusyInterval_eq _ _ _

theorem decrementActiveTasks_zero : c.decrementActiveTasks 0 = c := by
  unfold Pool.decrementActiveTasks Pool.closeBusyInterval
  rw [Nat.sub_zero]
  split
  · rw [if_neg (by omega)]
  · rw [if_neg (by omega)]

theorem updateWorker_closeBusyInterval (before after id : ℕ) (f : Worker → Worker) :
    (c.closeBusyInterval before after).updateWorker id f =
      (c.updateWorker id f).closeBusyInterval before after := by
  unfold Pool.closeBusyInterval Pool.updateWorker
  dsimp only
  split <;> split <;> rfl

/-- A worker that is terminated: its tasks are off the count, and off the worker. -/
theorem terminateWorker_cases (id : ℕ) (reason : String) :
    c.worker? id = none ∧ c.terminateWorker id reason = c ∨
      ∃ w, c.worker? id = some w ∧
        SameWork ((c.decrementActiveTasks w.tasks).updateWorker id fun w => { w with tasks := 0 })
          (c.terminateWorker id reason) := by
  unfold Pool.terminateWorker
  cases hw : c.worker? id with
  | none => exact Or.inl ⟨rfl, rfl⟩
  | some w =>
    refine Or.inr ⟨w, rfl, ?_⟩
    dsimp only
    by_cases htasks : 0 < w.tasks
    · rw [if_pos htasks]
      exact SameWork.cleanupAll _ _ _
    · rw [if_neg htasks, Nat.eq_zero_of_not_pos htasks, decrementActiveTasks_zero]
      exact SameWork.cleanupAll _ _ _

theorem workers_terminateWorker (id : ℕ) (reason : String) :
    (c.terminateWorker id reason).workers =
      c.workers.map fun w => if w.id = id then { w with tasks := 0 } else w := by
  rcases terminateWorker_cases c id reason with ⟨hnone, h⟩ | ⟨w, -, h⟩
  · rw [h]
    have hother : ∀ w ∈ c.workers, (if w.id = id then { w with tasks := 0 } else w) = w := by
      intro w hw
      have hne := List.find?_eq_none.mp hnone w hw
      rw [if_neg (by simpa using hne)]
    exact (List.map_congr_left hother).trans (List.map_id' c.workers) |>.symm
  · obtain ⟨busySince, busyTimeMs, heq⟩ := decrementActiveTasks_eq c w.tasks
    rw [h.workers, heq]
    rfl

theorem nextWorkerId_terminateWorker (id : ℕ) (reason : String) :
    (c.terminateWorker id reason).nextWorkerId = c.nextWorkerId := by
  rcases terminateWorker_cases c id reason with ⟨-, h⟩ | ⟨w, -, h⟩
  · rw [h]
  · obtain ⟨busySince, busyTimeMs, heq⟩ := decrementActiveTasks_eq c w.tasks
    rw [h.nextWorkerId, heq]
    rfl

theorem ids_terminateWorker (id : ℕ) (reason : String) :
    (c.terminateWorker id reason).workers.map (·.id) = c.workers.map (·.id) := by
  rw [workers_terminateWorker]
  exact ids_updateWorker c id (f := fun w => { w with tasks := 0 }) fun _ => rfl

end

/-! ## The roster -/

theorem Roster.of_ids (hc : Roster c) (hids : c'.workers.map (·.id) = c.workers.map (·.id))
    (hnext : c'.nextWorkerId = c.nextWorkerId) : Roster c' := by
  constructor
  · rw [hids]
    exact hc.ids
  · intro w hw
    have hmem : w.id ∈ c.workers.map (·.id) := hids ▸ List.mem_map_of_mem hw
    obtain ⟨v, hv, hid⟩ := List.mem_map.mp hmem
    rw [hnext, ← hid]
    exact hc.given v hv

theorem Change.roster (h : Change W P c c') (hc : Roster c) : Roster c' := by
  cases h with
  | same _ h => exact hc.of_ids (by rw [h.workers]) h.nextWorkerId
  | mark f hf =>
    refine hc.of_ids ?_ rfl
    rw [List.map_map]
    exact List.map_congr_left fun w _ => hf.id w
  | hire =>
    unfold Pool.tryAddWorker
    split
    · constructor
      · dsimp only [Pool.addWorkerInstance]
        rw [List.map_append]
        refine List.nodup_append.mpr ⟨hc.ids, List.nodup_singleton _, ?_⟩
        intro i hi j hj
        obtain ⟨w, hw, rfl⟩ := List.mem_map.mp hi
        rw [List.mem_singleton.mp hj]
        exact (hc.given w hw).ne
      · intro w hw
        rcases List.mem_append.mp hw with hw | hw
        · exact (hc.given w hw).trans (Nat.lt_succ_self _)
        · rw [List.mem_singleton.mp hw]
          exact Nat.lt_succ_self _
    · exact ⟨hc.ids, fun w hw => (hc.given w hw).trans (Nat.lt_succ_self _)⟩
  | post p key busy _ _ =>
    refine hc.of_ids (ids_recordPost c p key busy) ?_
    obtain ⟨ws, bs, bt, heq⟩ := recordPost_eq c p key busy
    rw [heq]
  | reply id _ _ =>
    obtain ⟨bs, bt, heq⟩ := decrementActiveTasks_eq (c.updateWorker id fun w =>
      { w with tasks := w.tasks - 1, unanswered := w.unanswered - 1, lastActive := c.now }) 1
    refine hc.of_ids ?_ ?_
    · rw [Pool.countReply, heq]
      exact ids_updateWorker c id (f := fun w =>
        { w with tasks := w.tasks - 1, unanswered := w.unanswered - 1, lastActive := c.now }) fun _ => rfl
    · rw [Pool.countReply, heq]
      rfl
  | halt id reason =>
    exact hc.of_ids (ids_terminateWorker c id reason) (nextWorkerId_terminateWorker c id reason)
  | leave w ws hperm _ =>
    have hids := (hperm.map (·.id)).nodup_iff.mp hc.ids
    exact ⟨(List.nodup_cons.mp hids).2,
      fun v hv => hc.given v (hperm.mem_iff.mpr (List.mem_cons_of_mem w hv))⟩
  | empty _ => exact ⟨List.nodup_nil, fun w hw => absurd hw List.not_mem_nil⟩
  | idle =>
    obtain ⟨isIdle, reports, heq, -⟩ := updateIdleState_eq c
    rw [heq]
    exact hc.of_ids rfl rfl
  | observe =>
    obtain ⟨reports, heq, -⟩ := observeIdle_eq c
    rw [heq]
    exact hc.of_ids rfl rfl

theorem Changes.roster (h : Changes W P c c') (hc : Roster c) : Roster c' := by
  induction h with
  | refl => exact hc
  | tail _ hstep ih => exact hstep.roster ih

/-! ## The tasks of all workers -/

theorem totalTasks_map (c : Pool V) (hf : ∀ w, (f w).tasks = w.tasks) :
    ({ c with workers := c.workers.map f } : Pool V).totalTasks = c.totalTasks := by
  unfold Pool.totalTasks
  rw [List.map_map]
  exact congrArg List.sum (List.map_congr_left fun w _ => hf w)

theorem totalTasks_perm {ws : List Worker} (h : c.workers.Perm (w :: ws)) :
    c.totalTasks = w.tasks + ({ c with workers := ws } : Pool V).totalTasks := by
  unfold Pool.totalTasks
  rw [(h.map (·.tasks)).sum_eq]
  exact List.sum_cons

theorem totalTasks_updateWorker (hc : Roster c) (hw : w ∈ c.workers)
    (f : Worker → Worker) :
    (c.updateWorker w.id f).totalTasks + w.tasks = c.totalTasks + (f w).tasks := by
  have hids := hc.ids
  obtain ⟨as, bs, heq⟩ := List.append_of_mem hw
  rw [heq, List.map_append, List.map_cons] at hids
  obtain ⟨-, hbs, has⟩ := List.nodup_append.mp hids
  have hkept (zs : List Worker) (hzs : ∀ v ∈ zs, v.id ≠ w.id) :
      zs.map (fun v => if v.id = w.id then f v else v) = zs :=
    (List.map_congr_left fun v hv => if_neg (hzs v hv)).trans (List.map_id' zs)
  unfold Pool.totalTasks Pool.updateWorker
  dsimp only
  rw [heq, List.map_append, List.map_cons, if_pos rfl, hkept as, hkept bs]
  · simp only [List.map_append, List.map_cons, List.sum_append, List.sum_cons]
    omega
  · intro v hv hid
    exact (List.nodup_cons.mp hbs).1 (hid ▸ List.mem_map_of_mem hv)
  · intro v hv hid
    exact has _ (List.mem_map_of_mem hv) _ List.mem_cons_self hid

theorem totalTasks_hire (W : World) (c : Pool V) : (c.tryAddWorker W).1.totalTasks = c.totalTasks := by
  unfold Pool.tryAddWorker
  split
  · unfold Pool.totalTasks Pool.addWorkerInstance
    rw [List.map_append, List.sum_append]
    rfl
  · rfl

theorem totalTasks_recordPost (hc : Roster c) {p : Post V} (hin : Employs c p.worker)
    (key : Option String) (busy : Bool) :
    (c.recordPost p key busy).totalTasks = c.totalTasks + 1 := by
  obtain ⟨w, hw, hid⟩ := hin
  have h := totalTasks_updateWorker hc hw fun w =>
    { w with
      tasks := w.tasks + 1
      unanswered := w.unanswered + 1
      startTimes := w.startTimes ++ [c.now]
      lastActive := c.now }
  rw [hid] at h
  have heq : (c.recordPost p key busy).totalTasks = (c.updateWorker p.worker fun w =>
      { w with
        tasks := w.tasks + 1
        unanswered := w.unanswered + 1
        startTimes := w.startTimes ++ [c.now]
        lastActive := c.now }).totalTasks := by
    unfold Pool.recordPost Pool.totalTasks
    dsimp only
    split
    · rw [workers_closeBusyInterval]
      rfl
    · rfl
  rw [heq]
  dsimp only at h ⊢
  omega

theorem totalTasks_of_workers (h : c'.workers = c.workers) : c'.totalTasks = c.totalTasks := by
  unfold Pool.totalTasks
  rw [h]

theorem recordPost_count (c : Pool V) (p : Post V) (key : Option String) (busy : Bool) :
    ∃ d : Pool V, d.busySince = c.busySince ∧ d.busyTimeMs = c.busyTimeMs ∧ d.now = c.now ∧
      d.activeTasks = c.activeTasks + 1 ∧ d.totalTasks = (c.recordPost p key busy).totalTasks ∧
      c.recordPost p key busy =
        if busy then d.closeBusyInterval c.activeTasks (c.activeTasks + 1) else d := by
  refine ⟨{ (c.updateWorker p.worker fun w =>
      { w with
        tasks := w.tasks + 1
        unanswered := w.unanswered + 1
        startTimes := w.startTimes ++ [c.now]
        lastActive := c.now }).markPendingWorker key p.worker with
    activeTasks := c.activeTasks + 1, posted := c.posted ++ [p] }, rfl, rfl, rfl, rfl, ?_, rfl⟩
  apply totalTasks_of_workers
  unfold Pool.recordPost
  dsimp only
  split
  · rw [workers_closeBusyInterval]
  · rfl

theorem totalTasks_countReply (hc : Roster c) (hw : w ∈ c.workers) :
    (c.countReply w.id).totalTasks + w.tasks = c.totalTasks + (w.tasks - 1) := by
  have h := totalTasks_updateWorker hc hw fun w =>
    { w with tasks := w.tasks - 1, unanswered := w.unanswered - 1, lastActive := c.now }
  obtain ⟨bs, bt, heq⟩ := decrementActiveTasks_eq (c.updateWorker w.id fun w =>
    { w with tasks := w.tasks - 1, unanswered := w.unanswered - 1, lastActive := c.now }) 1
  rw [Pool.countReply, heq]
  exact h

theorem totalTasks_terminateWorker (hc : Roster c) (hw : w ∈ c.workers) (reason : String) :
    (c.terminateWorker w.id reason).totalTasks + w.tasks = c.totalTasks := by
  have h := totalTasks_updateWorker hc hw fun w => { w with tasks := 0 }
  have heq : (c.terminateWorker w.id reason).totalTasks =
      (c.updateWorker w.id fun w => { w with tasks := 0 }).totalTasks :=
    totalTasks_of_workers (workers_terminateWorker c w.id reason)
  rw [heq]
  exact h

/-! ## Workers that come and go -/

theorem addWorkers_changes (n : ℕ) (c : Pool V) : Changes W P c (c.addWorkers W n) := by
  induction n generalizing c with
  | zero => exact .refl
  | succ n ih =>
    rw [Pool.addWorkers]
    have hhired : Changes W P c (c.tryAddWorker W).1 := .single (.hire c)
    split
    · exact hhired
    · exact hhired.trans (ih _)

theorem dropWorker_perm (hc : Roster c) (hw : w ∈ c.workers) :
    c.workers.Perm (w :: (c.dropWorker w.id).workers) := by
  refine (List.perm_cons_erase hw).trans (List.Perm.cons w (List.Perm.of_eq ?_))
  rw [hc.ids.of_map.erase_eq_filter]
  apply List.filter_congr
  intro v hv
  by_cases hid : v.id = w.id
  · rw [List.inj_on_of_nodup_map hc.ids hv hw hid]
    simp
  · have hne : v ≠ w := fun h => hid (by rw [h])
    simp [hid, hne]

theorem swapOut_perm (hc : Roster c) (hw : w ∈ c.workers) :
    c.workers.Perm (w :: (c.swapOut w.id).workers) := by
  rcases List.eq_nil_or_concat c.workers with hnil | ⟨ys, last, heq⟩
  · rw [hnil] at hw
    cases hw
  · rw [List.concat_eq_append] at heq
    have hids := hc.ids
    have hlast : c.workers.getLast? = some last := by
      rw [heq, List.getLast?_append]
      rfl
    have hkept (zs : List Worker) (hzs : ∀ v ∈ zs, v.id ≠ w.id) :
        zs.map (fun v => if v.id = w.id then last else v) = zs :=
      (List.map_congr_left fun v hv => if_neg (hzs v hv)).trans (List.map_id' zs)
    unfold Pool.swapOut
    rw [hlast]
    change c.workers.Perm (w :: (c.workers.map fun v => if v.id = w.id then last else v).dropLast)
    rw [heq] at hw hids ⊢
    rw [List.map_append, List.map_singleton, List.dropLast_concat]
    rw [List.map_append, List.map_singleton] at hids
    obtain ⟨hys, -, hdisjoint⟩ := List.nodup_append.mp hids
    rcases List.mem_append.mp hw with hw | hw
    · -- the last worker takes its place
      obtain ⟨as, bs, rfl⟩ := List.append_of_mem hw
      rw [List.map_append, List.map_cons] at hys
      obtain ⟨-, hbs, has⟩ := List.nodup_append.mp hys
      rw [List.map_append, List.map_cons, if_pos rfl, hkept as, hkept bs]
      · rw [List.append_assoc, List.cons_append]
        refine List.perm_middle.trans (List.Perm.cons w ?_)
        rw [← List.append_assoc]
        exact (List.perm_append_singleton last (as ++ bs)).trans List.perm_middle.symm
      · intro v hv hid
        exact (List.nodup_cons.mp hbs).1 (hid ▸ List.mem_map_of_mem hv)
      · intro v hv hid
        exact has _ (List.mem_map_of_mem hv) _ List.mem_cons_self hid
    · obtain rfl := List.mem_singleton.mp hw
      rw [hkept ys]
      · exact List.perm_append_singleton w ys
      · intro v hv hid
        exact hdisjoint _ (List.mem_map_of_mem hv) _ (List.mem_singleton_self _) hid

theorem tasks_terminated (c : Pool V) (id : ℕ) (reason : String) :
    ∀ w ∈ (c.terminateWorker id reason).workers, w.id = id → w.tasks = 0 := by
  intro w hw hid
  rw [workers_terminateWorker] at hw
  obtain ⟨v, -, rfl⟩ := List.mem_map.mp hw
  by_cases hv : v.id = id
  · rw [if_pos hv]
  · rw [if_neg hv] at hid
    exact absurd hid hv

theorem retire_changes (hc : Roster c) (reason : String) (id : ℕ) :
    Changes W P c (c.retire reason id) := by
  have hhalt : Changes W P c (c.terminateWorker id reason) := .single (.halt c id reason)
  have hroster := hhalt.roster hc
  by_cases hin : Employs (c.terminateWorker id reason) id
  · obtain ⟨w, hw, hid⟩ := hin
    have hperm := dropWorker_perm hroster hw
    rw [hid] at hperm
    exact hhalt.tail (.leave _ w _ hperm (tasks_terminated c id reason w hw hid))
  · refine hhalt.trans (Changes.same ?_)
    have hsame : ((c.terminateWorker id reason).dropWorker id).workers =
        (c.terminateWorker id reason).workers :=
      List.filter_eq_self.mpr fun w hw => by simpa using fun hid => hin ⟨w, hw, hid⟩
    exact ⟨hsame, rfl, rfl, rfl, rfl, rfl, rfl, rfl⟩

theorem retireSwapping_changes (reason : String) {ids : List ℕ} (hids : ids.Nodup)
    (hc : Roster c) (hin : ∀ id ∈ ids, Employs c id) :
    Changes W P c (c.retireSwapping reason ids) := by
  unfold Pool.retireSwapping
  induction ids generalizing c with
  | nil => exact .refl
  | cons id ids ih =>
    have hhalt : Changes W P c (c.terminateWorker id reason) := .single (.halt c id reason)
    have hroster := hhalt.roster hc
    have hstill (i : ℕ) (hi : Employs c i) : Employs (c.terminateWorker id reason) i := by
      rw [employs_iff] at hi ⊢
      rw [ids_terminateWorker]
      exact hi
    obtain ⟨w, hw, hid⟩ := hstill id (hin id List.mem_cons_self)
    have hperm := swapOut_perm hroster hw
    rw [hid] at hperm
    have hgone : Change W P (c.terminateWorker id reason) ((c.terminateWorker id reason).swapOut id) := by
      have hleave := Change.leave (W := W) (P := P) (c.terminateWorker id reason) w _ hperm
        (tasks_terminated c id reason w hw hid)
      have heq : { c.terminateWorker id reason with
          workers := ((c.terminateWorker id reason).swapOut id).workers } =
          (c.terminateWorker id reason).swapOut id := by
        unfold Pool.swapOut
        split <;> rfl
      rw [heq] at hleave
      exact hleave
    obtain ⟨hnot, hrest⟩ := List.nodup_cons.mp hids
    refine (hhalt.tail hgone).trans (ih hrest (hgone.roster hroster) fun i hi => ?_)
    obtain ⟨v, hv, hvid⟩ := hstill i (hin i (List.mem_cons_of_mem id hi))
    rcases List.mem_cons.mp (hperm.mem_iff.mp hv) with rfl | hv'
    · rw [hid] at hvid
      exact absurd (hvid ▸ hi) hnot
    · exact ⟨v, hv', hvid⟩

theorem retireIdle_changes (hc : Roster c) (reason : String) (idle : Worker → Bool) (n : ℕ) :
    Changes W P c (c.retireSwapping reason (((c.workers.reverse.filter idle).map (·.id)).take n)) := by
  have hsub : (c.workers.reverse.filter idle).Sublist c.workers.reverse := List.filter_sublist
  refine retireSwapping_changes reason ?_ hc fun id hid => ?_
  · have hreverse : (c.workers.reverse.map (·.id)).Nodup := by
      rw [List.map_reverse]
      exact List.nodup_reverse.mpr hc.ids
    exact (hreverse.sublist (hsub.map _)).sublist (List.take_sublist _ _)
  · obtain ⟨w, hw, rfl⟩ := List.mem_map.mp (List.mem_of_mem_take hid)
    exact ⟨w, List.mem_reverse.mp (hsub.subset hw), rfl⟩

theorem terminateWorkers_changes (ids : List ℕ) (reason : String) (c : Pool V) :
    Changes W P c (c.terminateWorkers ids reason) := by
  unfold Pool.terminateWorkers
  induction ids generalizing c with
  | nil => exact .refl
  | cons id ids ih => exact .head (.halt c id reason) (ih _)

theorem workers_terminateWorkers (ids : List ℕ) (reason : String) (c : Pool V) :
    (c.terminateWorkers ids reason).workers =
      c.workers.map fun w => if w.id ∈ ids then { w with tasks := 0 } else w := by
  unfold Pool.terminateWorkers
  induction ids generalizing c with
  | nil => simp
  | cons id ids ih =>
    rw [List.foldl_cons, ih, workers_terminateWorker, List.map_map]
    apply List.map_congr_left
    intro w _
    simp only [Function.comp_apply, List.mem_cons]
    by_cases hid : w.id = id
    · rw [if_pos hid, if_pos (Or.inl hid)]
      split <;> rfl
    · rw [if_neg hid]
      simp only [hid, false_or]

/-- Nobody has a task after everybody has been terminated. -/
theorem tasks_terminateWorkers {ids : List ℕ} (hids : ∀ w ∈ c.workers, w.id ∈ ids) (reason : String) :
    ∀ w ∈ (c.terminateWorkers ids reason).workers, w.tasks = 0 := by
  intro w hw
  rw [workers_terminateWorkers] at hw
  obtain ⟨v, hv, rfl⟩ := List.mem_map.mp hw
  rw [if_pos (hids v hv)]

theorem resetPool_changes (c : Pool V) (recreate : Bool) : Changes W P c (c.resetPool W recreate) := by
  unfold Pool.resetPool
  dsimp only
  have hcleared : SameWork c { c with queue := [] } := by constructor <;> rfl
  have hrejected := hcleared.trans (SameWork.rejectAllPending { c with queue := [] }
    "stopThePress: cancelled pending response")
  generalize Pool.rejectAllPending { c with queue := [] } _ = d at hrejected ⊢
  have hended : Changes W P c (d.terminateWorkers (d.workers.map (·.id)).reverse "stopThePress:reset") :=
    (Changes.same hrejected).trans (terminateWorkers_changes _ _ _)
  have hempty := hended.tail (.empty _ (tasks_terminateWorkers
    (fun w hw => List.mem_reverse.mpr (List.mem_map_of_mem hw)) _))
  split
  · exact Changes.idle (hempty.trans (addWorkers_changes _ _))
  · exact Changes.idle hempty

theorem shutdown_changes (c : Pool V) : Changes W P c c.shutdown := by
  unfold Pool.shutdown
  split
  · exact .refl
  · dsimp only
    have hterminated : SameWork c { c with terminated := true } := by constructor <;> rfl
    have hrejected := hterminated.trans
      (SameWork.rejectAllPending { c with terminated := true } "pool:shutdown")
    generalize Pool.rejectAllPending { c with terminated := true } _ = d at hrejected ⊢
    have hended : Changes W P c (d.terminateWorkers (d.workers.map (·.id)) "shutdown") :=
      (Changes.same hrejected).trans (terminateWorkers_changes _ _ _)
    have hempty := hended.tail (.empty _ (tasks_terminateWorkers
      (fun w hw => List.mem_map_of_mem hw) _))
    refine Changes.idle (hempty.trans (Changes.same ?_))
    constructor <;> rfl

theorem handleWorkerExit_changes (hc : Roster c) (id : ℕ) : Changes W P c (c.handleWorkerExit W id) := by
  have hretired : Changes W P c (c.retire "worker-exit" id) := retire_changes hc "worker-exit" id
  unfold Pool.handleWorkerExit
  split
  · exact .refl
  · next w _ =>
    dsimp only
    generalize (if w.everCompletedTask then 0 else
      (c.retire "worker-exit" id).consecutiveBootstrapFailures + 1) = failures
    have hsame : SameWork (c.retire "worker-exit" id)
        { c.retire "worker-exit" id with consecutiveBootstrapFailures := failures } := by
      constructor <;> rfl
    have hcounted := hretired.trans (Changes.same hsame)
    split
    · exact Changes.idle hcounted
    · split
      · exact Changes.idle hcounted
      · exact Changes.idle (hcounted.trans (addWorkers_changes _ _))

theorem addWorker_changes (c : Pool V) : Changes W P c (c.addWorker W) := by
  unfold Pool.addWorker
  split
  · exact .refl
  · have hhired : Changes W P c (c.tryAddWorker W).1 := .single (.hire c)
    dsimp only
    split
    · exact Changes.idle hhired
    · exact hhired

theorem removeWorker_changes (hc : Roster c) : Changes W P c c.removeWorker := by
  unfold Pool.removeWorker
  split
  · exact .refl
  · exact Changes.idle (retire_changes hc _ _)

theorem resize_changes (hc : Roster c) (minSize maxSize : ℕ) :
    Changes W P c (c.resize W minSize maxSize) := by
  have hretired (ids : List ℕ) : ∀ d : Pool V, Roster d →
      Changes W P d (ids.foldl (fun c id => c.retire "resize" id) d) := by
    induction ids with
    | nil => exact fun d _ => .refl
    | cons id ids ih =>
      intro d hd
      have hone : Changes W P d (d.retire "resize" id) := retire_changes hd _ _
      exact hone.trans (ih _ (hone.roster hd))
  unfold Pool.resize
  dsimp only
  have hsized : Changes W P c { c with minSize, maxSize := max minSize maxSize } :=
    .same (by constructor <;> rfl)
  have hfilled := hsized.trans (addWorkers_changes (W := W) (P := P)
    (min minSize (max minSize maxSize) - c.workers.length) _)
  exact Changes.idle (hfilled.trans (hretired _ _ (Changes.roster hfilled hc)))

theorem reapIdleWorkers_changes (hc : Roster c) : Changes W P c c.reapIdleWorkers := by
  unfold Pool.reapIdleWorkers
  split
  · exact .refl
  · apply Changes.idle
    unfold Pool.reapable
    split
    · exact .refl
    · exact retireIdle_changes hc _ _ _

theorem autoScaleTick_changes (hc : Roster c) (limit : ℚ) (add remove : ℕ) :
    Changes W P c (c.autoScaleTick W limit add remove) := by
  have hlimit : Changes W P c { c with adaptiveLimit := limit } := .same (by constructor <;> rfl)
  have hc' : Roster { c with adaptiveLimit := limit } := hlimit.roster hc
  unfold Pool.autoScaleTick
  split
  · exact .refl
  · dsimp only
    split
    · exact hlimit.trans (addWorkers_changes _ _)
    · split
      · exact hlimit.trans (retireIdle_changes hc' "autoscale" (fun w => w.tasks = 0) _)
      · exact hlimit

theorem broadcast_changes (c : Pool V) (m : Message V) (tr : TransferList) :
    Changes W P c (c.broadcast W T m tr) := by
  have heach (ids : List ℕ) : ∀ d : Pool V, Drained W P c d → (∀ id ∈ ids, Employs c id) →
      Changes W P c (ids.foldl (fun c id =>
        (c.dispatchToWorker W T id (prepareBroadcast T m tr) none none false
          { message := m, transfer := tr, route := .broadcast }).1) d) := by
    induction ids with
    | nil => exact fun d hd _ => hd.1
    | cons id ids ih =>
      intro d hd hin
      rw [List.foldl_cons]
      refine ih _ ⟨hd.1.trans (dispatchToWorker_changes (hd.employs (hin id List.mem_cons_self)) _ none
        none false _), ?_⟩ fun i hi => hin i (List.mem_cons_of_mem id hi)
      rw [ids_dispatchToWorker]
      exact hd.2
  unfold Pool.broadcast
  exact Changes.idle (heach _ c ⟨.refl, rfl⟩ fun id hid => employs_iff.mpr hid)

theorem resumeQueue_changes (c : Pool V) : Changes W P c (c.resumeQueue W T) := by
  unfold Pool.resumeQueue
  split
  · have hresumed : Changes W P c { c with queuePaused := false } := .same (by constructor <;> rfl)
    exact hresumed.trans (dispatchQueuedTasks_changes _)
  · exact .refl

/-! ## A step -/

def PostPermitted (W : World) (T : ObjectText V) (P : Permit V) : PostCondition V :=
  fun c m tr o detached => Bypasses W T c m tr o detached → P.bypass c.activeTasks

def EventPermitted (W : World) (T : ObjectText V) (P : Permit V) (c : Pool V) (e : Event V) : Prop :=
  EventMeets W T (PostPermitted W T P) (fun _ _ _ => True) c e ∧
    match e with
    | .message id message => Counts c id message → P.reply c id
    | _ => True

theorem postEach_changes {detached : List ℕ} {posts : List (Pool.BatchItem V × PostOptions)}
    (h : EachMeets W T (PostPermitted W T P) detached c posts) :
    Changes W P c (c.postEach W T detached posts).1 := by
  induction posts generalizing c with
  | nil => exact .refl
  | cons p posts ih =>
    have hfirst := postMessageInner_changes c p.1.1 p.1.2 p.2 detached h.1
    rw [Pool.postEach]
    dsimp only
    split
    · exact hfirst
    · next herror => exact hfirst.trans (ih (h.2 herror))

theorem step_changes (hc : Roster c) {e : Event V} (he : EventPermitted W T P c e)
    (hclock : ∀ reading, e ≠ .clock reading) : Changes W P c (step W T c e) := by
  cases e with
  | clock reading => exact absurd rfl (hclock reading)
  | post m tr o detached => exact postMessageInner_changes c m tr o detached he.1
  | batch items o ids detached =>
    rcases postMessageBatch_cases W T c items o ids detached with h | ⟨hrunning, hwant, hopens, h⟩ |
      ⟨-, -, h⟩
    · rw [step, h]
    · have heach := he.1 hrunning
      rw [if_pos hwant] at heach
      rw [step, h]
      exact postEach_changes (heach hopens)
    · rw [step, h]
      exact fireAndForget_changes c items o
  | broadcast m tr => exact broadcast_changes c m tr
  | stopThePress recreate m tr o detached =>
    have hreset : Changes W P c (c.resetPool W recreate) := resetPool_changes c recreate
    cases recreate with
    | true => exact hreset.trans (postMessageInner_changes _ m tr o detached he.1)
    | false => exact hreset.trans (enqueueOrReject_changes _ _ none _ o _)
  | message id m => exact handleMessage_changes c id m he.2
  | exit id => exact handleWorkerExit_changes hc id
  | timeout n => exact .same (SameWork.responseTimeout c n)
  | abort s => exact .same (SameWork.abort c s)
  | pause => exact .same (by constructor <;> rfl)
  | resume => exact resumeQueue_changes c
  | addWorker => exact addWorker_changes c
  | removeWorker => exact removeWorker_changes hc
  | resize minSize maxSize => exact resize_changes hc minSize maxSize
  | reap => exact reapIdleWorkers_changes hc
  | autoScale limit add remove => exact autoScaleTick_changes hc limit add remove
  | observe => exact .single (.observe c)
  | shutdown => exact shutdown_changes c

theorem new_changes (W : World) (P : Permit V) (config : Config) (minSize maxSize initial sequence : ℕ) :
    Changes W P
      { toConfig := config, minSize, maxSize := max minSize maxSize, correlationSequence := sequence }
      (Pool.new W config minSize maxSize initial sequence) :=
  addWorkers_changes initial _

end

end PerformanceHelpers.PowerPool
