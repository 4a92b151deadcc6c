import Mathlib.Data.List.Basic

/- `PowerScheduler` (`src/helpers/powerScheduler.js`): one flush on the next turn of the strategy it
   was made with.

   A continuation that the runtime holds (`tasks`) resumes at any time and in any order. A macrotask
   has a handle that detaches it and `postTask` a controller that aborts it; a `yield` cannot be taken
   back and carries the generation it was scheduled in; a microtask resumes whatever happens. The
   flush function belongs to the owner of the scheduler, which is told whether it is to be called. -/
namespace PerformanceHelpers.PowerScheduler

inductive Scheduling where
  | microtask
  | macrotask
  | yield
  | postTask
  deriving DecidableEq

/-- The strategy that was asked for, and what the runtime has of it. -/
structure Strategy where
  scheduling : Scheduling
  hasSchedulerYield : Bool
  hasPostTask : Bool
  deriving DecidableEq

inductive Resumption where
  | plain
  | yield (generation : ℕ)
  | postTask
  deriving DecidableEq

structure Task where
  id : ℕ
  resumption : Resumption
  deriving DecidableEq

/-- The fields of the scheduler, with the continuations that the runtime holds and the number of all
that were ever posted. The placeholder handles that do nothing are `none`. -/
structure Scheduler where
  strategy : Strategy
  scheduled : Bool
  timer : Option ℕ
  taskController : Option ℕ
  generation : ℕ
  tasks : List Task
  posted : ℕ
  deriving DecidableEq

def new (strategy : Strategy) : Scheduler := ⟨strategy, false, none, none, 0, [], 0⟩

/-- The runtime is given a continuation. -/
def post (s : Scheduler) (resumption : Resumption) : Scheduler :=
  { s with tasks := s.tasks ++ [⟨s.posted, resumption⟩], posted := s.posted + 1 }

def scheduleMacrotask (s : Scheduler) : Scheduler := { post s .plain with timer := some s.posted }

def schedule (s : Scheduler) : Scheduler :=
  if s.scheduled = true then s
  else
    let s := { s with scheduled := true }
    match s.strategy.scheduling with
    | .macrotask => scheduleMacrotask s
    | .postTask =>
      if s.strategy.hasPostTask = true then { post s .postTask with taskController := some s.posted }
      else scheduleMacrotask s
    | .yield =>
      if s.strategy.hasSchedulerYield = true then
        { post s (.yield (s.generation + 1)) with generation := s.generation + 1 }
      else scheduleMacrotask s
    | .microtask => post s .plain

/-- What the runtime still holds when the handle or the controller of one continuation is used. -/
def detach (tasks : List Task) : Option ℕ → List Task
  | none => tasks
  | some id => tasks.filter fun task => !decide (task.id = id)

def abortTask (s : Scheduler) : Scheduler :=
  { s with tasks := detach s.tasks s.taskController, taskController := none }

def cancel (s : Scheduler) : Scheduler :=
  if s.scheduled = false then s
  else
    let s := abortTask { s with scheduled := false }
    { s with tasks := detach s.tasks s.timer, timer := none }

/-- `_run`, and whether it calls the flush function. -/
def runFlush (s : Scheduler) : Scheduler × Bool :=
  if s.scheduled = false then (s, false)
  else ({ s with scheduled := false, timer := none }, true)

/-- `flush`, and whether it calls the flush function. -/
def flush (s : Scheduler) : Scheduler × Bool :=
  if s.scheduled = false then (s, false)
  else
    let s := abortTask s
    runFlush { s with tasks := detach s.tasks s.timer, timer := none }

/-- What a continuation does when it resumes. -/
def resume (s : Scheduler) : Resumption → Scheduler × Bool
  | .plain => runFlush s
  | .yield generation =>
    if generation ≠ s.generation then (s, false) else runFlush { s with timer := none }
  | .postTask => runFlush { s with taskController := none, timer := none }

/-- The `i`-th of the continuations that the runtime holds resumes. -/
def fire (s : Scheduler) (i : ℕ) : Scheduler × Bool :=
  match s.tasks[i]? with
  | none => (s, false)
  | some task => resume { s with tasks := s.tasks.eraseIdx i } task.resumption

def Current (s : Scheduler) (task : Task) : Prop := ∀ g, task.resumption = .yield g → g = s.generation

def Armed (s : Scheduler) : Prop := s.scheduled = true → ∃ task ∈ s.tasks, Current s task

variable {s : Scheduler} {i : ℕ}

theorem armed_of_idle (h : s.scheduled = false) : Armed s := by
  intro hs
  rw [h] at hs
  exact Bool.noConfusion hs

theorem new_armed (strategy : Strategy) : Armed (new strategy) := armed_of_idle rfl

@[simp] theorem cancel_scheduled (s : Scheduler) : (cancel s).scheduled = false := by
  unfold cancel
  split
  · assumption
  · rfl

@[simp] theorem schedule_scheduled (s : Scheduler) : (schedule s).scheduled = true := by
  unfold schedule
  split
  · assumption
  · dsimp only
    split
    · rfl
    · split <;> rfl
    · split <;> rfl
    · rfl

/-- A continuation that was just given to the runtime is held by it. -/
theorem armed_post {s' : Scheduler} (resumption : Resumption)
    (htasks : s'.tasks = s.tasks ++ [⟨s.posted, resumption⟩])
    (hcurrent : ∀ g, resumption = .yield g → g = s'.generation) : Armed s' := by
  intro _
  refine ⟨⟨s.posted, resumption⟩, ?_, hcurrent⟩
  rw [htasks]
  exact List.mem_append_right _ (List.mem_singleton.mpr rfl)

theorem schedule_armed (h : Armed s) : Armed (schedule s) := by
  unfold schedule
  split
  · exact h
  · have hplain : ∀ g, Resumption.plain = .yield g → g = s.generation := fun g heq => nomatch heq
    dsimp only
    split
    · exact armed_post (s := s) .plain rfl hplain
    · split
      · exact armed_post (s := s) .postTask rfl fun g heq => nomatch heq
      · exact armed_post (s := s) .plain rfl hplain
    · split
      · exact armed_post (s := s) (.yield (s.generation + 1)) rfl fun g heq => (Resumption.yield.inj heq).symm
      · exact armed_post (s := s) .plain rfl hplain
    · exact armed_post (s := s) .plain rfl hplain

theorem runFlush_fst (s : Scheduler) : (runFlush s).1.scheduled = false := by
  unfold runFlush
  split
  · assumption
  · rfl

theorem runFlush_snd (s : Scheduler) : (runFlush s).2 = s.scheduled := by
  unfold runFlush
  split
  · next h => exact h.symm
  · next h => exact (Bool.not_eq_false _ ▸ h : s.scheduled = true).symm

/-- A continuation runs the flush when one is scheduled and it is current; nothing is scheduled
after that. A superseded one changes nothing. -/
theorem resume_cases (s : Scheduler) (resumption : Resumption) :
    ((resume s resumption).1.scheduled = false ∧ (resume s resumption).2 = s.scheduled) ∨
      ∃ g, resumption = .yield g ∧ g ≠ s.generation ∧ resume s resumption = (s, false) := by
  cases resumption with
  | plain => exact Or.inl ⟨runFlush_fst s, runFlush_snd s⟩
  | postTask => exact Or.inl ⟨runFlush_fst _, runFlush_snd _⟩
  | yield g =>
    by_cases hg : g = s.generation
    · have heq : resume s (.yield g) = runFlush { s with timer := none } := if_neg (not_not.mpr hg)
      rw [heq]
      exact Or.inl ⟨runFlush_fst _, runFlush_snd _⟩
    · exact Or.inr ⟨g, rfl, hg, if_pos hg⟩

/-- When the flush function is called, a flush was scheduled and none is any more; when it is not,
what was scheduled still is. -/
theorem fire_scheduled (s : Scheduler) (i : ℕ) :
    ((fire s i).2 = true → s.scheduled = true ∧ (fire s i).1.scheduled = false) ∧
      ((fire s i).2 = false → (fire s i).1.scheduled = s.scheduled) := by
  unfold fire
  cases s.tasks[i]? with
  | none => exact ⟨fun h => Bool.noConfusion h, fun _ => rfl⟩
  | some task =>
    rcases resume_cases { s with tasks := s.tasks.eraseIdx i } task.resumption with
      ⟨hidle, hcalls⟩ | ⟨g, -, -, hsame⟩
    · dsimp only at hcalls ⊢
      rw [hcalls, hidle]
      exact ⟨fun h => ⟨h, rfl⟩, fun h => h.symm⟩
    · dsimp only
      rw [hsame]
      exact ⟨fun h => Bool.noConfusion h, fun _ => rfl⟩

theorem fire_armed (h : Armed s) (i : ℕ) : Armed (fire s i).1 := by
  unfold fire
  cases hi : s.tasks[i]? with
  | none => exact h
  | some task =>
    rcases resume_cases { s with tasks := s.tasks.eraseIdx i } task.resumption with
      ⟨hidle, -⟩ | ⟨g, hg, hold, hsame⟩
    · exact armed_of_idle hidle
    · dsimp only
      rw [hsame]
      intro hs
      obtain ⟨current, hmem, hcurrent⟩ := h hs
      have hne : current ≠ task := by
        rintro rfl
        exact hold (hcurrent g hg)
      refine ⟨current, ?_, hcurrent⟩
      obtain ⟨k, hk⟩ := List.mem_iff_getElem?.mp hmem
      refine List.mem_eraseIdx_iff_getElem?.mpr ⟨k, ?_, hk⟩
      rintro rfl
      rw [hi] at hk
      exact hne (Option.some.inj hk).symm

/-- What is scheduled runs when its continuation resumes. -/
theorem Armed.fires (h : Armed s) (hs : s.scheduled = true) : ∃ i, (fire s i).2 = true := by
  obtain ⟨task, hmem, hcurrent⟩ := h hs
  obtain ⟨i, hi⟩ := List.mem_iff_getElem?.mp hmem
  refine ⟨i, ?_⟩
  unfold fire
  rw [hi]
  rcases resume_cases { s with tasks := s.tasks.eraseIdx i } task.resumption with
    ⟨-, hcalls⟩ | ⟨g, hg, hold, -⟩
  · exact hcalls.trans hs
  · exact absurd (hcurrent g hg) hold

end PerformanceHelpers.PowerScheduler
