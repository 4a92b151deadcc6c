import PerformanceHelpers.PowerPool.Workers

/- The two counts of a `PowerPool`'s tasks (`src/helpers/powerPool.js`:
   `_decrementActiveTasks`, `worker.onmessage`, `_dispatchToWorker`,
   `_terminateWorker`), one for the pool and one for each worker.

   What is proved:
     1. `Change.tallied` — every change keeps the counts equal, but for a message of a
        worker without a task while another has one.
     2. `counts_agree` — so does every run without such messages. -/
namespace PerformanceHelpers.PowerPool

variable {V : Type}

/-- The pool counts the tasks of its workers, no worker counts more than it has been posted
and has not answered, and the pool has been reported idle only without tasks. -/
structure Tallied (c : Pool V) : Prop where
  active : c.activeTasks = c.totalTasks
  unanswered : ∀ w ∈ c.workers, w.tasks ≤ w.unanswered
  idle : ∀ r ∈ c.idleReports, r = (0, 0)

/-- A message that is counted as a reply comes from a worker with a task, or finds none
active. -/
def Solicited (c : Pool V) : Event V → Prop
  | .message id message =>
    Counts c id message → (∃ w ∈ c.worker? id, 0 < w.tasks) ∨ c.activeTasks = 0
  | _ => True

def Permit.solicited (V : Type) : Permit V where
  bypass _ := True
  reply c id := (∃ w ∈ c.worker? id, 0 < w.tasks) ∨ c.activeTasks = 0

section
variable {W : World} {T : ObjectText V} {c c' : Pool V}

theorem Tallied.of_eq (hc : Tallied c) (hactive : c'.activeTasks = c.activeTasks)
    (hworkers : c'.workers = c.workers) (hidle : c'.idleReports = c.idleReports) : Tallied c' := by
  refine ⟨?_, ?_, ?_⟩
  · rw [hactive, totalTasks_of_workers hworkers]
    exact hc.active
  · rw [hworkers]
    exact hc.unanswered
  · rw [hidle]
    exact hc.idle

/-- A worker's counts after an update that keeps them in order. -/
theorem unanswered_updateWorker (hc : Tallied c) (id : ℕ) {f : Worker → Worker}
    (hf : ∀ w, w.tasks ≤ w.unanswered → (f w).tasks ≤ (f w).unanswered) :
    ∀ w ∈ (c.updateWorker id f).workers, w.tasks ≤ w.unanswered := by
  intro w hw
  obtain ⟨v, hv, rfl⟩ := List.mem_map.mp hw
  split
  · exact hf v (hc.unanswered v hv)
  · exact hc.unanswered v hv

/-- What has been reported stays, and a new report says that nothing is left. -/
theorem Tallied.report (hc : Tallied c) {reports : List (ℕ × ℕ)}
    (h : reports = [] ∨ c.activeTasks = 0 ∧ c.queue = [] ∧ reports = [(c.totalTasks, c.queue.length)]) :
    ∀ r ∈ c.idleReports ++ reports, r = (0, 0) := by
  intro r hr
  rcases List.mem_append.mp hr with hr | hr
  · exact hc.idle r hr
  · rcases h with hnone | ⟨hactive, hqueue, hone⟩
    · rw [hnone] at hr
      cases hr
    · rw [hone] at hr
      rw [List.mem_singleton.mp hr, ← hc.active, hactive, hqueue]
      rfl

theorem Change.tallied (h : Change W (Permit.solicited V) c c') (hroster : Roster c)
    (hc : Tallied c) : Tallied c' := by
  have hactive := hc.active
  cases h with
  | same _ h => exact hc.of_eq h.activeTasks h.workers h.idleReports
  | mark f hf =>
    refine ⟨hc.active.trans (totalTasks_map c hf.tasks).symm, ?_, hc.idle⟩
    intro w hw
    obtain ⟨v, hv, rfl⟩ := List.mem_map.mp hw
    rw [hf.tasks, hf.unanswered]
    exact hc.unanswered v hv
  | hire =>
    refine ⟨?_, ?_, ?_⟩
    · rw [activeTasks_tryAddWorker, totalTasks_hire]
      exact hc.active
    · unfold Pool.tryAddWorker
      split
      · intro w hw
        rcases List.mem_append.mp hw with hw | hw
        · exact hc.unanswered w hw
        · rw [List.mem_singleton.mp hw]
          exact le_rfl
      · exact hc.unanswered
    · unfold Pool.tryAddWorker
      split <;> exact hc.idle
  | post p key busy hin _ =>
    have htotal := totalTasks_recordPost hroster hin key busy
    obtain ⟨ws, bs, bt, heq⟩ := recordPost_eq c p key busy
    refine ⟨?_, ?_, ?_⟩
    · rw [htotal, heq]
      exact congrArg (· + 1) hc.active
    · have hworkers : (c.recordPost p key busy).workers = (c.updateWorker p.worker fun w =>
          { w with
            tasks := w.tasks + 1
            unanswered := w.unanswered + 1
            startTimes := w.startTimes ++ [c.now]
            lastActive := c.now }).workers := by
        unfold Pool.recordPost
        dsimp only
        split
        · rw [workers_closeBusyInterval]
          rfl
        · rfl
      rw [hworkers]
      exact unanswered_updateWorker hc _ fun w hle => Nat.succ_le_succ hle
    · rw [heq]
      exact hc.idle
  | reply id hin hreply =>
    obtain ⟨v, hv, hid⟩ := hin
    obtain ⟨bs, bt, heq⟩ := decrementActiveTasks_eq (c.updateWorker id fun w =>
      { w with tasks := w.tasks - 1, unanswered := w.unanswered - 1, lastActive := c.now }) 1
    have htotal := totalTasks_countReply hroster hv
    rw [hid] at htotal
    rw [Pool.countReply, heq] at htotal ⊢
    refine ⟨?_, ?_, hc.idle⟩
    · dsimp only [Pool.updateWorker] at htotal ⊢
      rcases hreply with ⟨w, hw, htasks⟩ | hnone
      · have hmem := List.mem_of_find?_eq_some hw
        have hwid : w.id = id := by simpa using List.find?_some hw
        obtain rfl := List.inj_on_of_nodup_map hroster.ids hmem hv (hwid.trans hid.symm)
        omega
      · omega
    · exact unanswered_updateWorker hc id fun w hle => Nat.sub_le_sub_right hle 1
  | halt id reason =>
    rcases terminateWorker_cases c id reason with ⟨-, heq⟩ | ⟨w, hw, hsame⟩
    · rw [heq]
      exact hc
    · have hmem := List.mem_of_find?_eq_some hw
      have hid : w.id = id := by simpa using List.find?_some hw
      have htotal := totalTasks_terminateWorker hroster hmem reason
      rw [hid] at htotal
      obtain ⟨bs, bt, heq⟩ := decrementActiveTasks_eq c w.tasks
      rw [heq] at hsame
      refine ⟨?_, ?_, ?_⟩
      · rw [hsame.activeTasks]
        dsimp only [Pool.updateWorker]
        omega
      · rw [hsame.workers]
        exact unanswered_updateWorker (c := c) hc id fun w _ => Nat.zero_le _
      · rw [hsame.idleReports]
        exact hc.idle
  | leave w ws hperm htasks =>
    refine ⟨?_, fun v hv => hc.unanswered v (hperm.mem_iff.mpr (List.mem_cons_of_mem w hv)), hc.idle⟩
    have htotal := totalTasks_perm hperm
    dsimp only
    omega
  | empty _ => exact ⟨rfl, fun w hw => absurd hw List.not_mem_nil, hc.idle⟩
  | idle =>
    obtain ⟨isIdle, reports, heq, hreports⟩ := updateIdleState_eq c
    rw [heq]
    exact ⟨hc.active, hc.unanswered, hc.report hreports⟩
  | observe =>
    obtain ⟨reports, heq, hreports⟩ := observeIdle_eq c
    rw [heq]
    exact ⟨hc.active, hc.unanswered, hc.report hreports⟩

theorem Changes.tallied (h : Changes W (Permit.solicited V) c c') (hroster : Roster c)
    (hc : Tallied c) : Roster c' ∧ Tallied c' := by
  induction h with
  | refl => exact ⟨hroster, hc⟩
  | tail _ hstep ih => exact ⟨hstep.roster ih.1, hstep.tallied ih.1 ih.2⟩

/-- Every post may be made. -/
theorem eventMeets_solicited (c : Pool V) (e : Event V) :
    EventMeets W T (PostPermitted W T (Permit.solicited V)) (fun _ _ _ => True) c e :=
  eventMeets_of (fun _ _ _ _ _ _ => trivial) (fun _ _ _ => trivial) c e

theorem step_tallied (hroster : Roster c) (hc : Tallied c) {e : Event V} (he : Solicited c e) :
    Roster (step W T c e) ∧ Tallied (step W T c e) := by
  by_cases hclock : ∃ reading, e = .clock reading
  · obtain ⟨reading, rfl⟩ := hclock
    exact ⟨⟨hroster.ids, hroster.given⟩, hc.active, hc.unanswered, hc.idle⟩
  · have hpermitted : EventPermitted W T (Permit.solicited V) c e := by
      refine ⟨eventMeets_solicited c e, ?_⟩
      cases e with
      | message id message => exact he
      | _ => exact trivial
    exact (step_changes hroster hpermitted fun reading h => hclock ⟨reading, h⟩).tallied hroster hc

end

/-- In every run of a pool in which no worker without a task sends a message that is counted
while a task is active, the pool counts the tasks of its workers, no worker counts more than
it owes answers for, and the pool is reported idle only when nothing is left. -/
theorem counts_agree (W : World) (T : ObjectText V) (config : Config)
    (minSize maxSize initial sequence : ℕ) (es : List (Event V))
    (h : Meets (step W T) Solicited (Pool.new W config minSize maxSize initial sequence) es) :
    Always (step W T) Tallied (Pool.new W config minSize maxSize initial sequence) es := by
  have hstep : ∀ (c : Pool V) (e : Event V), Roster c ∧ Tallied c → Solicited c e →
      Roster (step W T c e) ∧ Tallied (step W T c e) := fun _ _ hc he => step_tallied hc.1 hc.2 he
  have hstart : Roster (Pool.new W config minSize maxSize initial sequence : Pool V) ∧
      Tallied (Pool.new W config minSize maxSize initial sequence : Pool V) := by
    apply (new_changes W (Permit.solicited V) config minSize maxSize initial sequence).tallied
    · exact ⟨List.nodup_nil, fun w hw => absurd hw List.not_mem_nil⟩
    · exact ⟨rfl, fun w hw => absurd hw List.not_mem_nil, fun r hr => absurd hr List.not_mem_nil⟩
  exact (always_of_meets hstep hstart h).mono fun c hc => hc.2

/-- A worker is posted a message and answers it. -/
theorem counts_agree_reply :
    Always (step .sound idText) Tallied (.new .sound {} 1 1 1 0)
      [.post (.object none) none {} [], .message 0 (.data false none none)] := by
  refine counts_agree .sound idText {} 1 1 1 0 _ ⟨trivial, ?_, trivial⟩
  intro _
  left
  decide +kernel

/-- A message of a worker without a task is counted against the task of another. -/
theorem unsolicited_message_drifts :
    ¬ Always (step .sound idText) Tallied (.new .sound {} 2 2 2 0)
      [.post (.object none) none {} [], .message 1 (.data false none none)] := by
  intro h
  have hactive := h.2.2.active
  revert hactive
  decide +kernel

end PerformanceHelpers.PowerPool
