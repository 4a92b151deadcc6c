import PerformanceHelpers.PowerScheduler
import PerformanceHelpers.Run
import Mathlib.Data.List.Chain

/- `PowerObserver` (`src/helpers/powerObserver.js`): a value that tells its subscribers of the
   writes to it, at once or in batches.

   A subscriber may call the observer. A delivery is therefore a loop with those that are
   still to be called, and the loops under way are a stack; what a subscriber does are the
   events before the next `call`. Subscribers are numbers, and what they throw is swallowed.
   The mapper is a function that may throw (`none`), and is not replaced.

   What is proved:
     1. `nobody_stale` — in every run in which no loop goes on to a subscriber with a value
        that has been replaced, unless another notification is pending, nobody is left with
        an old value.
     2. `notifications_chain` — in every run in which no batch ends with the mapped value it
        began with, and the first write that is mapped finds a value that is mapped as the
        initial one is, each notification starts where the one before it ended, and those of
        an observer with `distinct` lead elsewhere. -/
namespace PerformanceHelpers.PowerObserver
open PowerScheduler

/-- `_scheduleMode`. -/
inductive ScheduleMode where
  | sync
  | microtask
  | macrotask
  deriving DecidableEq, Repr

/-- The strategy of the observer's scheduler. -/
def ScheduleMode.strategy (mode : ScheduleMode) : Strategy where
  scheduling := if mode = .macrotask then .macrotask else .microtask
  hasSchedulerYield := false
  hasPostTask := false

structure Notification (M : Type) where
  next : M
  prev : M
  deriving DecidableEq

/-- A loop that tells them, and those that are still to be called. -/
structure Delivery (M : Type) extends Notification M where
  rest : List ℕ
  deriving DecidableEq

/-- An observer. `mapped` is `_mapped` where `_mappedValid` is set. Not the code's are the
`notifications`, in the order in which they started; the `informed`, who have been subscribed
since the last write that notifies; and the `delivered`, the newest first. -/
structure Observer (V M : Type) where
  map : V → Option M
  distinct : Bool
  mode : ScheduleMode
  value : V
  mapped : Option M := none
  pending : Option (Notification M) := none
  scheduler : Scheduler
  subs : List ℕ := []
  disposed : Bool := false
  loops : List (Delivery M) := []
  notifications : List (Notification M) := []
  informed : List ℕ := []
  delivered : List (ℕ × M) := []

/-- What happens to an observer: a call of its methods, a continuation of its scheduler, or
the next call of a loop. -/
inductive Event (V : Type) where
  | write (v : V)
  | subscribe (id : ℕ)
  | unsubscribe (id : ℕ)
  | clear
  | dispose
  | flush
  | task (i : ℕ)
  | call

namespace Observer

variable {V M : Type}

/-- The constructor. -/
def new (map : V → Option M) (distinct : Bool) (mode : ScheduleMode) (initial : V) : Observer V M :=
  { map, distinct, mode, value := initial, scheduler := PowerScheduler.new mode.strategy }

variable (s : Observer V M)

def deliver (n : Notification M) : Observer V M :=
  { s with
    loops := { n with rest := s.subs } :: s.loops
    notifications := s.notifications ++ [n] }

def flushPending : Observer V M :=
  match s.pending with
  | none => s
  | some n => { s with pending := none }.deliver n

def notify (n : Notification M) : Observer V M :=
  let s := { s with informed := s.subs }
  if s.mode = .sync then s.deliver n
  else
    match s.pending with
    | none => { s with pending := some n, scheduler := PowerScheduler.schedule s.scheduler }
    | some n' => { s with pending := some { n' with next := n.next } }

/-- `set value`; a mapper that throws leaves the value written. -/
def write [DecidableEq M] (v : V) : Observer V M :=
  if s.disposed then s
  else
    let s' := { s with value := v }
    match s.mapped.or (s.map s.value), s.map v with
    | some prev, some next =>
      let s' := { s' with mapped := some next }
      if s.distinct = true ∧ prev = next then s' else s'.notify ⟨next, prev⟩
    | _, _ => s'

def scheduled (r : Scheduler × Bool) : Observer V M :=
  let s := { s with scheduler := r.1 }
  if r.2 then s.flushPending else s

def dispose : Observer V M :=
  if s.disposed then s
  else
    { s with
      disposed := true
      pending := none
      subs := []
      informed := []
      scheduler := PowerScheduler.cancel s.scheduler }

/-- The loop on top calls its next subscriber, or ends. -/
def call : Observer V M :=
  match s.loops with
  | [] => s
  | d :: loops =>
    match d.rest with
    | [] => { s with loops }
    | id :: rest =>
      { s with loops := { d with rest } :: loops, delivered := (id, d.next) :: s.delivered }

/-- A step of an observer. A continuation runs when no other call is under way. -/
def step {V M : Type} [DecidableEq M] (s : Observer V M) : Event V → Observer V M
  | .write v => s.write v
  | .subscribe id =>
    if s.disposed ∨ id ∈ s.subs then s else { s with subs := s.subs ++ [id] }
  | .unsubscribe id => { s with subs := s.subs.erase id, informed := s.informed.filter (· ≠ id) }
  | .clear => { s with subs := [], informed := [] }
  | .dispose => s.dispose
  | .flush => s.scheduled (PowerScheduler.flush s.scheduler)
  | .task i => if s.loops.isEmpty then s.scheduled (PowerScheduler.fire s.scheduler i) else s
  | .call => s.call

/-- The last `next` a subscriber was called with. -/
def lastNext (id : ℕ) : Option M := (s.delivered.find? (·.1 = id)).map Prod.snd

/-! ## Nobody is stale -/

/-- With no notification pending or being delivered, whoever has been subscribed since the last
write that notifies has last been told the mapped current value. -/
def Fresh : Prop :=
  s.pending = none → s.loops = [] → ∀ id ∈ s.informed, ∀ m, s.map s.value = some m →
    s.lastNext id = some m

/-- A loop does not go on to a subscriber with a value that has been replaced, unless another
notification is pending. -/
def Timely : Event V → Prop
  | .call => ∀ d ∈ s.loops.head?, ∀ id ∈ d.rest.head?, id ∈ s.informed → s.pending = none →
      s.mapped = some d.next
  | _ => True

/-- Whoever is to know the current value knows it, is about to be called, or is going to be
told. -/
structure Told : Prop where
  subscribed : ∀ id ∈ s.informed, id ∈ s.subs
  unmapped : s.mapped = none → s.informed = []
  current : ∀ m, s.mapped = some m → ∀ m', s.map s.value = some m' → m' = m
  told : s.pending = none → ∀ id ∈ s.informed,
    s.lastNext id = s.mapped ∨ ∃ d ∈ s.loops, id ∈ d.rest

section
variable {s : Observer V M}

theorem new_told (map : V → Option M) (distinct : Bool) (mode : ScheduleMode) (initial : V) :
    (new map distinct mode initial).Told where
  subscribed := fun _ hid => nomatch hid
  unmapped := fun _ => rfl
  current := fun _ hm => nomatch hm
  told := fun _ _ hid => nomatch hid

/-- A loop has begun with all who are to know. -/
theorem Told.deliver (h : ∀ id ∈ s.informed, id ∈ s.subs) (hunmapped : s.mapped = none → s.informed = [])
    (hcurrent : ∀ m, s.mapped = some m → ∀ m', s.map s.value = some m' → m' = m)
    (n : Notification M) : (s.deliver n).Told where
  subscribed := h
  unmapped := hunmapped
  current := hcurrent
  told := fun _ id hid => Or.inr ⟨_, List.mem_cons_self, h id hid⟩

theorem Told.flushPending (hs : s.Told) : s.flushPending.Told := by
  unfold Observer.flushPending
  split
  · exact hs
  · next n _ => exact Told.deliver (s := { s with pending := none }) hs.subscribed hs.unmapped hs.current n

theorem Told.scheduled (hs : s.Told) (r : Scheduler × Bool) : (s.scheduled r).Told := by
  have hs' : ({ s with scheduler := r.1 } : Observer V M).Told :=
    { hs with }
  unfold Observer.scheduled
  dsimp only
  split
  · exact hs'.flushPending
  · exact hs'

theorem Told.write [DecidableEq M] (hs : s.Told) (v : V) : (s.write v).Told := by
  unfold Observer.write
  split
  · exact hs
  · dsimp only
    split
    · next prev next hprev hnext =>
      have hcurrent : ∀ m, some next = some m → ∀ m', s.map v = some m' → m' = m := by
        intro m hm m' hm'
        rw [hnext] at hm'
        exact (Option.some.inj hm').symm.trans (Option.some.inj hm)
      split
      · next hsame =>
        -- the mapped value is the one it was, or nobody has been told any
        refine ⟨hs.subscribed, fun h => (nomatch h), hcurrent, fun hpending id hid => ?_⟩
        have hmapped : s.mapped = some next := by
          cases hm : s.mapped with
          | none =>
            rw [hs.unmapped hm] at hid
            cases hid
          | some m =>
            rw [hm, Option.some_or, hsame.2] at hprev
            exact hprev
        have htold := hs.told hpending id hid
        rw [hmapped] at htold
        exact htold
      · unfold Observer.notify
        dsimp only
        split
        · exact Told.deliver (s := { s with value := v, mapped := some next, informed := s.subs })
            (fun _ h => h) (fun h => nomatch h) hcurrent _
        · split
          · exact ⟨fun _ h => h, fun h => (nomatch h), hcurrent, fun h => nomatch h⟩
          · exact ⟨fun _ h => h, fun h => (nomatch h), hcurrent, fun h => nomatch h⟩
    · next hthrows =>
      refine ⟨hs.subscribed, hs.unmapped, fun m hm m' hm' => ?_, hs.told⟩
      have hm : s.mapped = some m := hm
      exact absurd hm' (hthrows m m' (by rw [hm]; rfl))

theorem Told.call (hs : s.Told) (h : s.Timely .call) : s.call.Told := by
  unfold Observer.call
  cases hloops : s.loops with
  | nil => exact hs
  | cons d loops =>
    rcases d with ⟨n, rest⟩
    cases rest with
    | nil =>
      refine ⟨hs.subscribed, hs.unmapped, hs.current, fun hpending id hid => ?_⟩
      rcases hs.told hpending id hid with htold | ⟨d, hd, hrest⟩
      · exact Or.inl htold
      · rw [hloops] at hd
        rcases List.mem_cons.mp hd with rfl | hd
        · cases hrest
        · exact Or.inr ⟨d, hd, hrest⟩
    | cons next rest =>
      refine ⟨hs.subscribed, hs.unmapped, hs.current, fun hpending id hid => ?_⟩
      by_cases hid' : next = id
      · left
        subst hid'
        have hcurrent := h ⟨n, next :: rest⟩ (by rw [hloops]; rfl) next rfl hid hpending
        rw [hcurrent]
        exact congrArg (Option.map Prod.snd) (List.find?_cons_of_pos (decide_eq_true rfl))
      · rcases hs.told hpending id hid with htold | ⟨d, hd, hrest⟩
        · left
          rw [← htold]
          exact congrArg (Option.map Prod.snd) (List.find?_cons_of_neg (by simpa using hid'))
        · right
          rw [hloops] at hd
          rcases List.mem_cons.mp hd with rfl | hd
          · rcases List.mem_cons.mp hrest with hrest | hrest
            · exact absurd hrest.symm hid'
            · exact ⟨_, List.mem_cons_self, hrest⟩
          · exact ⟨d, List.mem_cons_of_mem _ hd, hrest⟩

theorem Told.step [DecidableEq M] (hs : s.Told) (e : Event V) (h : s.Timely e) : (s.step e).Told := by
  cases e with
  | write v => exact hs.write v
  | subscribe id =>
    simp only [Observer.step]
    split
    · exact hs
    · exact ⟨fun i hi => List.mem_append_left _ (hs.subscribed i hi), hs.unmapped, hs.current, hs.told⟩
  | unsubscribe id =>
    have hkept : ∀ i ∈ s.informed.filter (· ≠ id), i ∈ s.informed ∧ i ≠ id := by
      intro i hi
      simpa using hi
    refine ⟨fun i hi => ?_, fun hm => ?_, hs.current, fun hpending i hi => hs.told hpending i (hkept i hi).1⟩
    · exact (List.mem_erase_of_ne (hkept i hi).2).mpr (hs.subscribed i (hkept i hi).1)
    · exact (congrArg _ (hs.unmapped hm)).trans List.filter_nil
  | clear => exact ⟨fun i hi => (nomatch hi), fun _ => rfl, hs.current, fun _ i hi => nomatch hi⟩
  | dispose =>
    show s.dispose.Told
    unfold Observer.dispose
    split
    · exact hs
    · exact ⟨fun i hi => (nomatch hi), fun _ => rfl, hs.current, fun _ i hi => nomatch hi⟩
  | flush => exact hs.scheduled _
  | task i =>
    simp only [Observer.step]
    split
    · exact hs.scheduled _
    · exact hs
  | call => exact hs.call h

theorem Told.fresh (hs : s.Told) : s.Fresh := by
  intro hpending hloops id hid m hm
  cases hmapped : s.mapped with
  | none =>
    rw [hs.unmapped hmapped] at hid
    cases hid
  | some m' =>
    rcases hs.told hpending id hid with htold | ⟨d, hd, -⟩
    · rw [htold, hmapped, hs.current m' hmapped m hm]
    · rw [hloops] at hd
      cases hd

end

/-! ## The chain of notifications -/

/-- Each notification starts where the one before it ended, the first one at the mapped initial
value, and those of a distinct observer lead elsewhere. -/
structure Chained (initial : V) : Prop where
  first : ∀ n ∈ s.notifications.head?, s.map initial = some n.prev
  linked : s.notifications.IsChain fun n n' => n'.prev = n.next
  distinct : s.distinct = true → ∀ n ∈ s.notifications, n.next ≠ n.prev

/-- Where the next notification is to start. -/
def reached (initial : V) : Option M :=
  match s.notifications.getLast? with
  | none => s.map initial
  | some n => some n.next

/-- If the flush function is called, the batch of a distinct observer does not end with the
value it began with. -/
def Moves (r : Scheduler × Bool) : Prop :=
  r.2 = true → ∀ n ∈ s.pending, s.distinct = true → n.next ≠ n.prev

/-- The first write that is mapped finds a value that is mapped as the initial one is, and no
batch of a distinct observer ends with the value it began with. -/
def Links (initial : V) : Event V → Prop
  | .write v =>
    s.mapped = none → ∀ prev next, s.map s.value = some prev → s.map v = some next →
      s.map initial = some prev
  | .flush => s.Moves (PowerScheduler.flush s.scheduler)
  | .task i => s.loops.isEmpty → s.Moves (PowerScheduler.fire s.scheduler i)
  | _ => True

structure Linking (initial : V) : Prop extends s.Chained initial where
  unmapped : s.mapped = none → s.pending = none ∧ s.notifications = []
  idle : ∀ m, s.mapped = some m → s.disposed = false → s.pending = none → s.reached initial = some m
  batch : ∀ n, s.pending = some n → s.mapped = some n.next ∧ s.reached initial = some n.prev
  atOnce : s.mode = .sync → s.pending = none

section
variable {s : Observer V M} {initial : V}

theorem new_linking (map : V → Option M) (distinct : Bool) (mode : ScheduleMode) :
    (new map distinct mode initial).Linking initial where
  first := fun _ hn => nomatch hn
  linked := List.IsChain.nil
  distinct := fun _ _ hn => nomatch hn
  unmapped := fun _ => ⟨rfl, rfl⟩
  idle := fun _ hm => nomatch hm
  batch := fun _ hn => nomatch hn
  atOnce := fun _ => rfl

theorem reached_deliver (n : Notification M) : (s.deliver n).reached initial = some n.next := by
  have hlast : (s.notifications ++ [n]).getLast? = some n := List.getLast?_concat
  simp only [reached, deliver, hlast]

/-- A notification that starts where the last one ended goes on with the chain. -/
theorem Chained.deliver (hs : s.Chained initial) {n : Notification M}
    (hprev : s.reached initial = some n.prev) (hmoves : s.distinct = true → n.next ≠ n.prev) :
    (s.deliver n).Chained initial where
  first := by
    intro n' hn'
    cases hnotes : s.notifications with
    | nil =>
      have hn' : n' ∈ (s.notifications ++ [n]).head? := hn'
      rw [hnotes] at hn'
      obtain rfl := Option.some.inj hn'
      rw [reached, hnotes] at hprev
      exact hprev
    | cons n₀ notes =>
      have hn' : n' ∈ (s.notifications ++ [n]).head? := hn'
      refine hs.first n' ?_
      rw [hnotes] at hn' ⊢
      exact hn'
  linked := by
    refine hs.linked.append (List.IsChain.singleton n) fun n₁ hn₁ n₂ hn₂ => ?_
    obtain rfl := Option.some.inj hn₂
    rw [reached, Option.mem_def.mp hn₁] at hprev
    exact (Option.some.inj hprev).symm
  distinct := by
    intro hdistinct n' hn'
    rcases List.mem_append.mp hn' with hn' | hn'
    · exact hs.distinct hdistinct n' hn'
    · obtain rfl := List.mem_singleton.mp hn'
      exact hmoves hdistinct

theorem Linking.deliver (hs : s.Chained initial) {n : Notification M} (hpending : s.pending = none)
    (hmapped : s.mapped = some n.next) (hprev : s.reached initial = some n.prev)
    (hmoves : s.distinct = true → n.next ≠ n.prev) : (s.deliver n).Linking initial where
  toChained := hs.deliver hprev hmoves
  unmapped := by
    intro h
    rw [show s.mapped = none from h] at hmapped
    cases hmapped
  idle := by
    intro m hm _ _
    rw [reached_deliver, ← hmapped]
    exact hm
  batch := by
    intro n' hn'
    rw [show s.pending = some n' from hn'] at hpending
    cases hpending
  atOnce := fun _ => hpending

section
variable (hs : s.Linking initial)
include hs

theorem Linking.flushPending
    (hmoves : ∀ n ∈ s.pending, s.distinct = true → n.next ≠ n.prev) :
    s.flushPending.Linking initial := by
  unfold Observer.flushPending
  split
  · exact hs
  · next n hn =>
    have hbatch := hs.batch n hn
    have hchained : ({ s with pending := none } : Observer V M).Chained initial :=
      ⟨hs.first, hs.linked, hs.distinct⟩
    exact Linking.deliver hchained rfl hbatch.1 hbatch.2 (hmoves n hn)

theorem Linking.scheduled {r : Scheduler × Bool} (h : s.Moves r) :
    (s.scheduled r).Linking initial := by
  have hs' : ({ s with scheduler := r.1 } : Observer V M).Linking initial :=
    ⟨⟨hs.first, hs.linked, hs.distinct⟩, hs.unmapped, hs.idle, hs.batch, hs.atOnce⟩
  unfold Observer.scheduled
  dsimp only
  split
  · next hflush => exact hs'.flushPending (h hflush)
  · exact hs'

/-- What a write that is mapped starts from is what the chain has reached, or the value of the
write that the batch ended with. -/
theorem Linking.prev {prev : M} (hdisposed : s.disposed = false)
    (hprev : s.mapped.or (s.map s.value) = some prev)
    (hfirst : s.mapped = none → s.map s.value = some prev → s.map initial = some prev)
    (hpending : s.pending = none) : s.reached initial = some prev := by
  cases hmapped : s.mapped with
  | none =>
    rw [hmapped] at hprev
    rw [reached, (hs.unmapped hmapped).2]
    exact hfirst hmapped hprev
  | some m =>
    rw [hmapped] at hprev
    obtain rfl := Option.some.inj hprev
    exact hs.idle m hmapped hdisposed hpending

theorem Linking.write [DecidableEq M] {v : V}
    (h : s.Links initial (.write v)) : (s.write v).Linking initial := by
  unfold Observer.write
  split
  · exact hs
  · next hdisposed =>
    have hdisposed : s.disposed = false := Bool.eq_false_iff.mpr hdisposed
    dsimp only
    split
    · next prev next hprev hnext =>
      have hreached := hs.prev hdisposed hprev fun hmapped hvalue => h hmapped prev next hvalue hnext
      split
      · next hsame =>
        -- the batch that is pending, if any, ends with the value this write is mapped to
        refine ⟨⟨hs.first, hs.linked, hs.distinct⟩, fun h => (nomatch h), fun m hm _ hpending => ?_,
          fun n hn => ⟨?_, (hs.batch n hn).2⟩, hs.atOnce⟩
        · rw [← hm, ← hsame.2]
          exact hreached hpending
        · rw [(hs.batch n hn).1] at hprev
          exact (congrArg some hsame.2.symm).trans hprev.symm
      · next hmoves =>
        have hmoves : s.distinct = true → next ≠ prev :=
          fun hdistinct heq => hmoves ⟨hdistinct, heq.symm⟩
        unfold Observer.notify
        dsimp only
        split
        · next hsync =>
          have hchained : ({ s with value := v, mapped := some next, informed := s.subs } :
              Observer V M).Chained initial := ⟨hs.first, hs.linked, hs.distinct⟩
          exact Linking.deliver (n := ⟨next, prev⟩) hchained (hs.atOnce hsync) rfl
            (hreached (hs.atOnce hsync)) hmoves
        · next hasync =>
          split
          · next hpending =>
            refine ⟨⟨hs.first, hs.linked, hs.distinct⟩, fun h => (nomatch h),
              fun _ _ _ h => (nomatch h), fun n hn => ?_, fun h => absurd h hasync⟩
            obtain rfl := Option.some.inj hn
            exact ⟨rfl, hreached hpending⟩
          · next n' hn' =>
            refine ⟨⟨hs.first, hs.linked, hs.distinct⟩, fun h => (nomatch h),
              fun _ _ _ h => (nomatch h), fun n hn => ?_, fun h => absurd h hasync⟩
            obtain rfl := Option.some.inj hn
            exact ⟨rfl, (hs.batch n' hn').2⟩
    · exact ⟨⟨hs.first, hs.linked, hs.distinct⟩, hs.unmapped, hs.idle, hs.batch, hs.atOnce⟩

theorem Linking.step [DecidableEq M] (e : Event V) (h : s.Links initial e) :
    (s.step e).Linking initial := by
  cases e with
  | write v => exact hs.write h
  | subscribe id =>
    simp only [Observer.step]
    split
    · exact hs
    · exact ⟨⟨hs.first, hs.linked, hs.distinct⟩, hs.unmapped, hs.idle, hs.batch, hs.atOnce⟩
  | unsubscribe id =>
    exact ⟨⟨hs.first, hs.linked, hs.distinct⟩, hs.unmapped, hs.idle, hs.batch, hs.atOnce⟩
  | clear => exact ⟨⟨hs.first, hs.linked, hs.distinct⟩, hs.unmapped, hs.idle, hs.batch, hs.atOnce⟩
  | dispose =>
    show s.dispose.Linking initial
    unfold Observer.dispose
    split
    · exact hs
    · exact ⟨⟨hs.first, hs.linked, hs.distinct⟩, fun hm => ⟨rfl, (hs.unmapped hm).2⟩,
        fun _ _ h => (nomatch h), fun _ h => (nomatch h), fun _ => rfl⟩
  | flush => exact hs.scheduled h
  | task i =>
    simp only [Observer.step]
    split
    · next hloops => exact hs.scheduled (h hloops)
    · exact hs
  | call =>
    show s.call.Linking initial
    unfold Observer.call
    split
    · exact hs
    · split
      · exact ⟨⟨hs.first, hs.linked, hs.distinct⟩, hs.unmapped, hs.idle, hs.batch, hs.atOnce⟩
      · exact ⟨⟨hs.first, hs.linked, hs.distinct⟩, hs.unmapped, hs.idle, hs.batch, hs.atOnce⟩

end

end

end Observer

/-- In every run in which no loop goes on to a subscriber with a value that has been replaced,
unless another notification is pending, whoever has been subscribed since the last write that
notifies has last been told the mapped current value whenever nothing is pending or being
delivered. -/
theorem nobody_stale {V M : Type} [DecidableEq M] (map : V → Option M) (distinct : Bool)
    (mode : ScheduleMode) (initial : V) (es : List (Event V))
    (h : Meets Observer.step Observer.Timely (.new map distinct mode initial) es) :
    Always Observer.step Observer.Fresh (.new map distinct mode initial) es := by
  have hstep : ∀ (s : Observer V M) (e : Event V), s.Told → s.Timely e → (s.step e).Told :=
    fun _ e hs he => hs.step e he
  exact (always_of_meets hstep (Observer.new_told map distinct mode initial) h).mono
    fun s hs => hs.fresh

/-- Two subscribers are told of a write. -/
theorem nobody_stale_write :
    Always Observer.step Observer.Fresh (.new (some : ℕ → Option ℕ) false .sync 0)
      [.subscribe 0, .subscribe 1, .write 1, .call, .call, .call] := by
  refine nobody_stale some false .sync 0 _ ⟨trivial, trivial, trivial, ?_, ?_, ?_, trivial⟩
  · intro d hd id _ _ _
    obtain rfl := Option.some.inj hd
    rfl
  · intro d hd id _ _ _
    obtain rfl := Option.some.inj hd
    rfl
  · intro d hd id hid
    obtain rfl := Option.some.inj hd
    cases hid

/-- The first of two subscribers writes when it is told of a write, and the second is told of
its write before it is told of the one before. -/
theorem stale_after_write :
    ¬ Always Observer.step Observer.Fresh (.new (some : ℕ → Option ℕ) false .sync 0)
      [.subscribe 0, .subscribe 1, .write 1, .call, .write 2, .call, .call, .call, .call, .call] := by
  intro h
  have hlast := h.last rfl rfl 1 (by decide) 2 rfl
  revert hlast
  decide

/-- In every run in which the first write that is mapped finds a value that is mapped as the
initial one is, and no batch of a distinct observer ends with the value it began with, the
notifications are a chain from the mapped initial value, each starting where the one before it
ended, and those of a distinct observer lead elsewhere. -/
theorem notifications_chain {V M : Type} [DecidableEq M] (map : V → Option M) (distinct : Bool)
    (mode : ScheduleMode) (initial : V) (es : List (Event V))
    (h : Meets Observer.step (Observer.Links · initial) (.new map distinct mode initial) es) :
    Always Observer.step (Observer.Chained · initial) (.new map distinct mode initial) es := by
  have hstep : ∀ (s : Observer V M) (e : Event V), s.Linking initial → s.Links initial e →
      (s.step e).Linking initial := fun _ e hs he => hs.step e he
  exact (always_of_meets hstep (Observer.new_linking map distinct mode) h).mono
    fun s hs => hs.toChained

/-- Two writes are flushed together and a third alone. -/
theorem notifications_chain_batch :
    Always Observer.step (Observer.Chained · 0) (.new (some : ℕ → Option ℕ) true .microtask 0)
      [.write 1, .write 2, .flush, .write 0, .task 1] := by
  refine notifications_chain some true .microtask 0 _ ⟨?_, ?_, ?_, ?_, ?_, trivial⟩
  · intro _ prev next hprev _
    exact hprev
  · intro hmapped
    cases hmapped
  · intro _ n hn _
    obtain rfl := Option.some.inj hn
    decide
  · intro hmapped
    cases hmapped
  · intro _ _ n hn _
    obtain rfl := Option.some.inj hn
    decide

/-- A batch of a distinct observer that ends with the value it began with is delivered. -/
theorem batch_leads_nowhere :
    ¬ Always Observer.step (Observer.Chained · 0) (.new (some : ℕ → Option ℕ) true .microtask 0)
      [.write 1, .write 0, .flush] := by
  intro h
  exact h.last.distinct rfl ⟨0, 0⟩ List.mem_cons_self rfl

end PerformanceHelpers.PowerObserver
