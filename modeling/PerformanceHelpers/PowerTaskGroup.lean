import PerformanceHelpers.Run

/- `PowerTaskGroup` (`src/helpers/powerTaskGroup.js`): tasks that share an abort signal, and
   `cancel`, which aborts it and waits for them.

   A task is started before it is in `_tasks`: `run` calls its function, and adds the promise
   when the synchronous part of the function is over. What a task does meanwhile (to run
   others, to cancel the group) is further events, and so is what the listeners of the signal
   do. `spawn` is `run`; `dispose` and `Symbol.asyncDispose` wait for a `cancel`.

   What is proved:
     1. `sealed_step` — after the first `cancel` no task starts.
     2. `signals_step` — with `cancelOnError` a task that failed has aborted the signal.
     3. `quiet_iff` — a promise of `cancel` that resolves finds every task settled exactly when
        those it does not wait for have settled by then. The first `cancel` waits for all but
        the tasks whose synchronous part calls it, a later one for none: `second_cancel`
        resolves beside a running task. -/
namespace PerformanceHelpers.PowerTaskGroup

structure Task where
  /-- Its function has not returned. -/
  starting : Bool := false
  /-- Its function threw, or what it returned was rejected. -/
  failed : Bool := false
  settled : Bool := false

/-- A promise of `cancel`. -/
structure Wait where
  /-- What it waits for. -/
  snapshot : List ℕ
  /-- The tasks under way at the call that it does not wait for. -/
  missed : List ℕ
  /-- The call closed the group. -/
  first : Bool
  resolved : Bool := false

structure Group where
  cancelOnError : Bool
  /-- `signal.aborted`. -/
  aborted : Bool := false
  disposed : Bool := false
  /-- The tasks are numbered as they start. -/
  started : ℕ := 0
  task : ℕ → Task := fun _ => {}
  tasks : List ℕ := []
  waits : List Wait := []

/-- The constructor. -/
def new (cancelOnError : Bool) : Group := { cancelOnError }

def unsettled (g : Group) : List ℕ := (List.range g.started).filter fun t => !(g.task t).settled

/-- `run(fn)`, up to the call of `fn`. -/
def runTask (g : Group) : Group :=
  if g.disposed then g
  else { g with
    started := g.started + 1
    task := Function.update g.task g.started { starting := true } }

/-- The `catch` of a task. -/
def fail (g : Group) (t : ℕ) : Group :=
  if t < g.started ∧ (g.task t).failed = false ∧ (g.task t).settled = false then
    { g with
      aborted := g.aborted || (g.cancelOnError && !g.disposed)
      task := Function.update g.task t { g.task t with failed := true } }
  else g

/-- The synchronous part of a task is over, and `run` adds it. -/
def leave (g : Group) (t : ℕ) : Group :=
  if t < g.started ∧ (g.task t).starting then
    { g with
      task := Function.update g.task t { g.task t with starting := false }
      tasks := g.tasks ++ [t] }
  else g

/-- The promise of a task settles. -/
def settle (g : Group) (t : ℕ) : Group :=
  if t < g.started ∧ (g.task t).starting = false then
    { g with task := Function.update g.task t { g.task t with settled := true } }
  else g

/-- The `finally` of a task. -/
def remove (g : Group) (t : ℕ) : Group :=
  if (g.task t).settled then { g with tasks := g.tasks.filter fun u => u != t } else g

/-- `cancel`, up to its `await`. -/
def cancel (g : Group) : Group :=
  if g.disposed then
    { g with waits := g.waits ++ [{ snapshot := [], missed := unsettled g, first := false }] }
  else
    { g with
      disposed := true
      aborted := true
      waits := g.waits ++
        [{ snapshot := g.tasks, missed := (unsettled g).filter fun t => !g.tasks.elem t
           first := true }] }

/-- `Symbol.dispose`. -/
def symbolDispose (g : Group) : Group :=
  if g.disposed then g else { g with disposed := true, aborted := true }

/-- What `cancel` waits for has settled. -/
def awaited (g : Group) (w : Wait) : Bool := w.snapshot.all fun t => (g.task t).settled

/-- The end of `cancel`, once what it waits for has settled. -/
def resolve (g : Group) (i : ℕ) : Group :=
  match g.waits[i]? with
  | none => g
  | some w =>
    if awaited g w then
      { g with
        tasks := if w.first then [] else g.tasks
        waits := g.waits.set i { w with resolved := true } }
    else g

inductive Event where
  | run
  | fail (t : ℕ)
  | leave (t : ℕ)
  | settle (t : ℕ)
  | remove (t : ℕ)
  | cancel
  | symbolDispose
  | resolve (i : ℕ)
  deriving DecidableEq

def step (g : Group) : Event → Group
  | .run => runTask g
  | .fail t => fail g t
  | .leave t => leave g t
  | .settle t => settle g t
  | .remove t => remove g t
  | .cancel => cancel g
  | .symbolDispose => symbolDispose g
  | .resolve i => resolve g i

/-! ## What a step changes -/

structure Moves (g g' : Group) : Prop where
  started : g'.started = g.started
  settled : ∀ t, (g.task t).settled → (g'.task t).settled

variable {g g' : Group} {t i : ℕ}

theorem Moves.refl (g : Group) : Moves g g := ⟨rfl, fun _ h => h⟩

theorem Moves.update (task : Task) (h : (g.task t).settled → task.settled)
    (hstarted : g'.started = g.started) (htask : g'.task = Function.update g.task t task) :
    Moves g g' := by
  refine ⟨hstarted, fun u hu => ?_⟩
  rw [htask]
  by_cases hut : u = t
  · subst hut
    rw [Function.update_self]
    exact h hu
  · rw [Function.update_of_ne hut]
    exact hu

theorem moves_step {e : Event} (h : e = .run → g.disposed) : Moves g (step g e) := by
  cases e with
  | run =>
    simp only [step, runTask, h rfl, if_true]
    exact .refl g
  | fail t =>
    simp only [step, fail]
    split
    · exact .update { g.task t with failed := true } (fun h => h) rfl rfl
    · exact .refl g
  | leave t =>
    simp only [step, leave]
    split
    · exact .update { g.task t with starting := false } (fun h => h) rfl rfl
    · exact .refl g
  | settle t =>
    simp only [step, settle]
    split
    · exact .update { g.task t with settled := true } (fun _ => rfl) rfl rfl
    · exact .refl g
  | remove t =>
    simp only [step, remove]
    split <;> exact ⟨rfl, fun _ h => h⟩
  | cancel =>
    simp only [step, cancel]
    split <;> exact ⟨rfl, fun _ h => h⟩
  | symbolDispose =>
    simp only [step, symbolDispose]
    split <;> exact ⟨rfl, fun _ h => h⟩
  | resolve i =>
    simp only [step, resolve]
    split
    · exact .refl g
    · split <;> exact ⟨rfl, fun _ h => h⟩

theorem disposed_step {e : Event} (h : g.disposed) : (step g e).disposed := by
  cases e <;> simp only [step, runTask, fail, leave, settle, remove, cancel, symbolDispose, resolve]
  case resolve i =>
    split
    · exact h
    · split <;> exact h
  all_goals split <;> exact h

theorem disposed_cancel (g : Group) : (cancel g).disposed := by
  unfold cancel
  split
  · assumption
  · rfl

/-- A `cancel`, and what comes after one, starts no task. -/
def Sealed (g : Group) (e : Event) : Prop :=
  e = .cancel ∨ g.disposed → (step g e).disposed ∧ (step g e).started = g.started

theorem sealed_step (g : Group) (e : Event) : Sealed g e := by
  rintro (rfl | hdisposed)
  · exact ⟨disposed_cancel g, (moves_step fun h => by cases h).started⟩
  · exact ⟨disposed_step hdisposed, (moves_step fun _ => hdisposed).started⟩

/-! ## The signal -/

/-- With `cancelOnError` the signal is aborted once a task has rejected. -/
def Alarmed (g : Group) : Prop :=
  g.cancelOnError → ∀ t, (g.task t).failed → (g.task t).settled → g.aborted

structure Signals (g : Group) : Prop where
  disposed : g.disposed → g.aborted
  failed : g.cancelOnError → ∀ t, (g.task t).failed → g.aborted

theorem Signals.alarmed (h : Signals g) : Alarmed g := fun hcancel t hfailed _ =>
  h.failed hcancel t hfailed

theorem Signals.update (h : Signals g) (task : Task) (hfailed : task.failed → (g.task t).failed)
    (hcancel : g'.cancelOnError = g.cancelOnError) (hdisposed : g'.disposed = g.disposed)
    (haborted : g'.aborted = g.aborted) (htask : g'.task = Function.update g.task t task) :
    Signals g' := by
  refine ⟨?_, ?_⟩
  · rw [hdisposed, haborted]
    exact h.disposed
  · rw [hcancel, haborted, htask]
    intro hc u hu
    by_cases hut : u = t
    · subst hut
      rw [Function.update_self] at hu
      exact h.failed hc u (hfailed hu)
    · rw [Function.update_of_ne hut] at hu
      exact h.failed hc u hu

theorem signals_step (h : Signals g) (e : Event) : Signals (step g e) := by
  cases e with
  | run =>
    simp only [step, runTask]
    split
    · exact h
    · exact h.update { starting := true } (fun hfalse => by cases hfalse) rfl rfl rfl rfl
  | fail t =>
    simp only [step, fail]
    split
    · refine ⟨fun hdisposed => ?_, fun hcancel u hu => ?_⟩
      · rw [h.disposed hdisposed]
        rfl
      · cases hdisposed : g.disposed with
        | true =>
          rw [h.disposed hdisposed]
          rfl
        | false =>
          have hcancel' : g.cancelOnError = true := hcancel
          rw [hcancel']
          exact Bool.or_true _
    · exact h
  | leave t =>
    simp only [step, leave]
    split
    · exact h.update { g.task t with starting := false } (fun hfailed => hfailed) rfl rfl rfl rfl
    · exact h
  | settle t =>
    simp only [step, settle]
    split
    · exact h.update { g.task t with settled := true } (fun hfailed => hfailed) rfl rfl rfl rfl
    · exact h
  | remove t =>
    simp only [step, remove]
    split <;> exact ⟨h.disposed, h.failed⟩
  | cancel =>
    simp only [step, cancel]
    split
    · exact ⟨h.disposed, h.failed⟩
    · exact ⟨fun _ => rfl, fun _ _ _ => rfl⟩
  | symbolDispose =>
    simp only [step, symbolDispose]
    split
    · exact h
    · exact ⟨fun _ => rfl, fun _ _ _ => rfl⟩
  | resolve i =>
    simp only [step, resolve]
    split
    · exact h
    · split <;> exact ⟨h.disposed, h.failed⟩

/-! ## The promises -/

/-- Where a promise of `cancel` has resolved, every task has settled. -/
def Quiet (g : Group) : Prop :=
  ∀ w ∈ g.waits, w.resolved → ∀ t < g.started, (g.task t).settled

/-- A promise that resolves finds the tasks it did not wait for settled. -/
def Covered (g : Group) : Event → Prop
  | .resolve i => ∀ w ∈ g.waits[i]?, awaited g w → ∀ t ∈ w.missed, (g.task t).settled
  | _ => True

/-- What every step keeps: a promise was made of a group that is closed, and every task has
settled, or the promise waits for it, or misses it. -/
structure Waits (g : Group) : Prop where
  disposed : g.waits ≠ [] → g.disposed
  known : ∀ w ∈ g.waits, ∀ t < g.started, (g.task t).settled ∨ t ∈ w.snapshot ∨ t ∈ w.missed
  missed : ∀ w ∈ g.waits, ∀ t ∈ w.missed, t < g.started

theorem Waits.moves (h : Waits g) (hmoves : Moves g g') (hdisposed : g.disposed → g'.disposed)
    (hwaits : g'.waits = g.waits) : Waits g' := by
  refine ⟨?_, ?_, ?_⟩
  · rw [hwaits]
    exact fun hne => hdisposed (h.disposed hne)
  · rw [hwaits, hmoves.started]
    intro w hw t ht
    exact (h.known w hw t ht).imp_left (hmoves.settled t)
  · rw [hwaits, hmoves.started]
    exact h.missed

theorem mem_unsettled : t ∈ unsettled g ↔ t < g.started ∧ (g.task t).settled = false := by
  rw [unsettled, List.mem_filter, List.mem_range, Bool.not_eq_true']

theorem Waits.append (h : Waits g) {w : Wait} (hmoves : Moves g g') (hdisposed : g'.disposed)
    (hwaits : g'.waits = g.waits ++ [w])
    (hknown : ∀ t ∈ unsettled g, t ∈ w.snapshot ∨ t ∈ w.missed)
    (hmissed : ∀ t ∈ w.missed, t ∈ unsettled g) : Waits g' := by
  refine ⟨fun _ => hdisposed, ?_, ?_⟩
  · rw [hwaits, hmoves.started]
    intro w' hw' t ht
    rcases List.mem_append.mp hw' with hw' | hw'
    · exact (h.known w' hw' t ht).imp_left (hmoves.settled t)
    · rw [List.mem_singleton.mp hw']
      cases hsettled : (g.task t).settled with
      | true => exact Or.inl (hmoves.settled t hsettled)
      | false => exact Or.inr (hknown t (mem_unsettled.mpr ⟨ht, hsettled⟩))
  · rw [hwaits, hmoves.started]
    intro w' hw' t ht
    rcases List.mem_append.mp hw' with hw' | hw'
    · exact h.missed w' hw' t ht
    · rw [List.mem_singleton.mp hw'] at ht
      exact (mem_unsettled.mp (hmissed t ht)).1

/-- What the end of a `cancel` does: nothing, or it marks its promise. -/
theorem resolve_cases (g : Group) (i : ℕ) :
    (resolve g i = g ∧ ∀ w ∈ g.waits[i]?, ¬awaited g w) ∨ ∃ w, g.waits[i]? = some w ∧
      awaited g w ∧ resolve g i = { g with
        tasks := if w.first then [] else g.tasks
        waits := g.waits.set i { w with resolved := true } } := by
  unfold resolve
  cases hw : g.waits[i]? with
  | none => exact Or.inl ⟨rfl, fun w hw => absurd hw (Option.not_mem_none w)⟩
  | some w =>
    dsimp only
    split
    · next hawaited => exact Or.inr ⟨w, rfl, hawaited, rfl⟩
    · next hnot =>
      refine Or.inl ⟨rfl, fun w' hw' => ?_⟩
      rw [← Option.some.inj hw']
      exact hnot

theorem waits_step (h : Waits g) (e : Event) : Waits (step g e) := by
  cases e with
  | run =>
    cases hdisposed : g.disposed with
    | true => exact h.moves (moves_step fun _ => hdisposed) disposed_step (by
        simp only [step, runTask, hdisposed, if_true])
    | false =>
      -- nobody has called `cancel` yet
      have hnone : g.waits = [] := by
        by_contra hne
        rw [h.disposed hne] at hdisposed
        cases hdisposed
      have hnone' : (step g .run).waits = [] := by
        simp only [step, runTask, hdisposed, Bool.false_eq_true, if_false]
        exact hnone
      refine ⟨fun hne => absurd hnone' hne, ?_, ?_⟩
      · rw [hnone']
        exact fun w hw => absurd hw List.not_mem_nil
      · rw [hnone']
        exact fun w hw => absurd hw List.not_mem_nil
  | cancel =>
    have hmoves : Moves g (step g .cancel) := moves_step fun hrun => by cases hrun
    cases hdisposed : g.disposed with
    | true =>
      refine h.append hmoves (disposed_cancel g)
        (w := { snapshot := [], missed := unsettled g, first := false }) ?_ ?_ ?_
      · simp only [step, cancel, hdisposed, if_true]
      · exact fun t ht => Or.inr ht
      · exact fun t ht => ht
    | false =>
      refine h.append hmoves (disposed_cancel g)
        (w := { snapshot := g.tasks, missed := (unsettled g).filter fun t => !g.tasks.elem t
                first := true }) ?_ ?_ ?_
      · simp only [step, cancel, hdisposed, Bool.false_eq_true, if_false]
      · intro t ht
        by_cases hmem : t ∈ g.tasks
        · exact Or.inl hmem
        · refine Or.inr (List.mem_filter.mpr ⟨ht, ?_⟩)
          simpa using hmem
      · exact fun t ht => (List.mem_filter.mp ht).1
  | resolve i =>
    rcases resolve_cases g i with ⟨heq, -⟩ | ⟨w, hw, -, heq⟩
    · simp only [step, heq]
      exact h
    · have hmem : w ∈ g.waits := List.mem_of_getElem? hw
      simp only [step, heq]
      refine ⟨fun _ => h.disposed (List.ne_nil_of_mem hmem), ?_, ?_⟩
      · intro w' hw'
        rcases List.mem_or_eq_of_mem_set hw' with hw' | rfl
        · exact h.known w' hw'
        · exact h.known w hmem
      · intro w' hw'
        rcases List.mem_or_eq_of_mem_set hw' with hw' | rfl
        · exact h.missed w' hw'
        · exact h.missed w hmem
  | fail t =>
    refine h.moves (moves_step fun hrun => by cases hrun) disposed_step ?_
    simp only [step, fail]
    split <;> rfl
  | leave t =>
    refine h.moves (moves_step fun hrun => by cases hrun) disposed_step ?_
    simp only [step, leave]
    split <;> rfl
  | settle t =>
    refine h.moves (moves_step fun hrun => by cases hrun) disposed_step ?_
    simp only [step, settle]
    split <;> rfl
  | remove t =>
    refine h.moves (moves_step fun hrun => by cases hrun) disposed_step ?_
    simp only [step, remove]
    split <;> rfl
  | symbolDispose =>
    refine h.moves (moves_step fun hrun => by cases hrun) disposed_step ?_
    simp only [step, symbolDispose]
    split <;> rfl

theorem Quiet.moves (h : Quiet g) (hmoves : Moves g g')
    (hwaits : ∀ w ∈ g'.waits, w.resolved → w ∈ g.waits) : Quiet g' := by
  intro w hw hresolved t ht
  rw [hmoves.started] at ht
  exact hmoves.settled t (h w (hwaits w hw hresolved) hresolved t ht)

theorem quiet_step_iff (hwaits : Waits g) (h : Quiet g) (e : Event) :
    Quiet (step g e) ↔ Covered g e := by
  have hquiet : (∀ w ∈ (step g e).waits, w.resolved → w ∈ g.waits) → Quiet (step g e) := by
    intro hsame
    by_cases hrun : e = .run ∧ ¬g.disposed
    · -- the group is not closed, and there is no promise
      obtain ⟨rfl, hopen⟩ := hrun
      have hnone : g.waits = [] := by
        by_contra hne
        exact hopen (hwaits.disposed hne)
      intro w hw hresolved
      have hmem := hsame w hw hresolved
      rw [hnone] at hmem
      exact absurd hmem List.not_mem_nil
    · exact h.moves (moves_step fun he => not_not.mp fun hopen => hrun ⟨he, hopen⟩) hsame
  cases e with
  | run =>
    refine iff_of_true (hquiet fun w hw _ => ?_) trivial
    simp only [step, runTask] at hw
    split at hw <;> exact hw
  | fail t =>
    refine iff_of_true (hquiet fun w hw _ => ?_) trivial
    simp only [step, fail] at hw
    split at hw <;> exact hw
  | leave t =>
    refine iff_of_true (hquiet fun w hw _ => ?_) trivial
    simp only [step, leave] at hw
    split at hw <;> exact hw
  | settle t =>
    refine iff_of_true (hquiet fun w hw _ => ?_) trivial
    simp only [step, settle] at hw
    split at hw <;> exact hw
  | remove t =>
    refine iff_of_true (hquiet fun w hw _ => ?_) trivial
    simp only [step, remove] at hw
    split at hw <;> exact hw
  | symbolDispose =>
    refine iff_of_true (hquiet fun w hw _ => ?_) trivial
    simp only [step, symbolDispose] at hw
    split at hw <;> exact hw
  | cancel =>
    refine iff_of_true (hquiet fun w hw hresolved => ?_) trivial
    simp only [step, cancel] at hw
    split at hw
    all_goals
      rcases List.mem_append.mp hw with hw | hw
      · exact hw
      · rw [List.mem_singleton.mp hw] at hresolved
        cases hresolved
  | resolve i =>
    rcases resolve_cases g i with ⟨heq, hnot⟩ | ⟨w, hw, hawaited, heq⟩
    · simp only [step, heq]
      exact iff_of_true h fun w hw hawaited => absurd hawaited (hnot w hw)
    · have hmem : w ∈ g.waits := List.mem_of_getElem? hw
      simp only [step, heq]
      constructor
      · intro hquiet w' hw' _ t ht
        obtain rfl : w = w' := Option.some.inj (hw.symm.trans hw')
        have hin : { w with resolved := true } ∈ g.waits.set i { w with resolved := true } :=
          List.mem_set (List.getElem?_eq_some_iff.mp hw).1 _
        exact hquiet _ hin rfl t (hwaits.missed w hmem t ht)
      · intro hcovered w' hw' hresolved t ht
        rcases List.mem_or_eq_of_mem_set hw' with hw' | rfl
        · exact h w' hw' hresolved t ht
        · rcases hwaits.known w hmem t ht with hsettled | hsnapshot | hmissed
          · exact hsettled
          · exact List.all_eq_true.mp hawaited t hsnapshot
          · exact hcovered w hw hawaited t hmissed

/-- A promise of `cancel` that resolves finds every task settled exactly when those it did not
wait for have settled by then; a `cancel` seals the group, and a failed task aborts it. -/
theorem quiet_iff (cancelOnError : Bool) (es : List Event) :
    (Always step Quiet (new cancelOnError) es ↔ Meets step Covered (new cancelOnError) es) ∧
      Meets step Sealed (new cancelOnError) es ∧ Always step Alarmed (new cancelOnError) es := by
  have hempty : ∀ w, w ∉ (new cancelOnError).waits := fun w => List.not_mem_nil
  have hwaits : Waits (new cancelOnError) :=
    ⟨fun h => absurd rfl h, fun w hw => absurd hw (hempty w), fun w hw => absurd hw (hempty w)⟩
  have hquiet : Quiet (new cancelOnError) := fun w hw => absurd hw (hempty w)
  have hsignals : Signals (new cancelOnError) :=
    ⟨fun h => (by cases h), fun _ t h => (by cases h)⟩
  have hsealed : ∀ (g : Group) (e : Event), True → Sealed g e := fun g e _ => sealed_step g e
  have hstep : ∀ (g : Group) (e : Event), Signals g → Signals (step g e) :=
    fun g e h => signals_step h e
  refine ⟨?_, ?_, ?_⟩
  · exact always_iff_meets (fun g e h => waits_step h e) (fun g e h hq => quiet_step_iff h hq e)
      hwaits hquiet
  · exact meets_of_step (fun _ _ _ => trivial) hsealed trivial es
  · exact (always_of_step hstep hsignals es).mono fun _ h => h.alarmed

/-- A second `cancel` resolves while a task runs. -/
theorem second_cancel :
    ¬Quiet (run step (new true) [.run, .leave 0, .cancel, .cancel, .resolve 1]) := by
  intro h
  have hmem : { snapshot := [], missed := [0], first := false, resolved := true } ∈
      (run step (new true) [.run, .leave 0, .cancel, .cancel, .resolve 1]).waits :=
    List.mem_cons_of_mem _ List.mem_cons_self
  have hsettled := h _ hmem rfl 0 (by decide)
  cases hsettled

end PerformanceHelpers.PowerTaskGroup
