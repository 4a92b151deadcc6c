import Mathlib.Algebra.Ring.Nat
import PerformanceHelpers.PowerSocketAdapter

/- The drain of a `PowerSocketAdapter` (`src/helpers/powerSocketAdapter.js`, `drain`,
   `_flushDrainWaiters`, `_finishDrain` and the ways a drain ends).

   `drain` pushes its `finish`, flushes it and calls it again where nothing is pending;
   the drain timer calls a `finish` that `_finishDrain` calls once more; `dispose` forgets
   the waiters; a drain on an adapter that is closed waits; and a stream is closed by every
   call of `close`.

   What is proved:
     1. `step_books` — what is pending is never less than what is busy.
     2. `drains_once` — in every run that keeps from the cases above (`Orderly`), a drain
        resolves `true` only with nothing pending, is counted once and has closed the socket
        once, and is settled when the adapter is closed. -/
namespace PerformanceHelpers.PowerSocketAdapter

/-! ## What is claimed of a drain -/

/-- A drain that has been settled was counted once, found the socket closed once, and found
nothing pending if it was resolved with `true`; one that has not been settled has at most
been counted. -/
def Drain.Right (d : Drain) : Prop :=
  match d.settled with
  | none => d.finishes ≤ 1
  | some r => d.finishes = 1 ∧ r.closes = 1 ∧ (r.ok = true → r.busy = 0)

/-- Every drain is right, and is counted; when nothing is left to do, one that has not been
settled has not been counted either, and there is none if the adapter is closed or
disposed. -/
structure DrainsRight (s : Adapter) : Prop where
  right : ∀ d ∈ s.drains, d.Right
  counted : s.drained = (s.drains.map (·.finishes)).sum
  settled : s.todo = [] → ∀ d ∈ s.drains, d.settled = none →
    d.finishes = 0 ∧ s.state ≠ .closed ∧ s.disposed = false

def Unsettled (s : Adapter) : Prop := ∃ d ∈ s.drains, d.settled = none

instance (s : Adapter) : Decidable (Unsettled s) := inferInstanceAs (Decidable (∃ d ∈ s.drains, _))

structure Drainable (s : Adapter) : Prop where
  disposed : s.disposed = false
  state : s.state = .connecting ∨ s.state = .opened
  closes : s.closes = 0
  pending : 0 < s.pending

/-- A drain is asked for while the socket is there and something is pending. While it waits
its timer does not fire, the adapter is not disposed, and a stream does not end and is not
idle. While it is not settled `close` is not called for a stream, nor for a socket whose
`close` is under way. -/
def Orderly (s : Adapter) : Event → Prop
  | .tick => s.todo.head? = some (.close false) → s.disposed = false → Unsettled s →
      s.stream = false ∧ (s.closes = 0 ∨ s.state = .closed)
  | .call .drain => Outside s → ¬ (s.draining = true ∧ s.drainPromise.isSome = true) → Drainable s
  | .call .dispose => Outside s → s.disposed = false → s.drainWaiters = []
  | .call .remoteClose => Outside s → s.stream = true → s.state ≠ .closed → s.drainWaiters = []
  | .turn .drainTimeout => s.todo = [] → s.drainTimer = none
  | .turn .idleTimeout => s.todo = [] → s.idleTimer = true → s.stream = true → s.drainWaiters = []
  | _ => True

instance (s : Adapter) : Decidable (Drainable s) :=
  decidable_of_iff (s.disposed = false ∧ (s.state = .connecting ∨ s.state = .opened) ∧ s.closes = 0 ∧
    0 < s.pending) ⟨fun h => ⟨h.1, h.2.1, h.2.2.1, h.2.2.2⟩, fun h => ⟨h.1, h.2, h.3, h.4⟩⟩

instance (s : Adapter) : ∀ e, Decidable (Orderly s e)
  | .tick => inferInstanceAs (Decidable (s.todo.head? = some (.close false) → _))
  | .call .drain | .call .dispose | .call .remoteClose => inferInstanceAs (Decidable (Outside s → _))
  | .turn .drainTimeout | .turn .idleTimeout => inferInstanceAs (Decidable (s.todo = [] → _))
  | .returns _ | .call (.message _ _) | .call (.send _) | .call .close | .turn (.handlerSettles _)
  | .turn (.writeSettles _) => inferInstanceAs (Decidable True)

/-! ## Operations -/

def Op.plain : Op → Bool
  | .finish _ _ | .close true | .resolve _ _ | .drainRest _ | .assign _ => false
  | _ => true

/-- Operations that come after the state is, or is to be, `CLOSED`. -/
def Op.closing : Op → Bool
  | .finishDrain | .closeRest | .idleRest => true
  | _ => false

/-- Operations that neither close the adapter nor have anything to do with what is
pending. -/
def Op.quiet : Op → Bool
  | .out .onMessage => false
  | .out _ | .invoke _ | .handleRest _ | .close false => true
  | _ => false

variable {rest : List Op} {e : Event} {ok : Bool} {op : Op}

theorem Op.plain_of_quiet (h : op.quiet = true) : op.plain = true := by
  cases op with
  | close draining => cases draining <;> first | rfl | cases h
  | out _ | invoke _ | handleRest _ | flush | finishDrain | closeRest | idleRest => rfl
  | finish _ _ | resolve _ _ | drainRest _ | assign _ => cases h

theorem Op.closing_of_quiet (h : op.quiet = true) : op.closing = false := by
  cases op with
  | finishDrain | closeRest | idleRest => cases h
  | _ => rfl

variable {s s' : Adapter}

inductive Noise (s : Adapter) : Adapter → Prop where
  | mk (ops : List Op) (idle : Bool) (hops : ∀ op ∈ ops, op.quiet = true) :
      Noise s { s with idleTimer := idle, todo := ops ++ s.todo }

namespace Noise

theorem refl (s : Adapter) : Noise s s := .mk [] s.idleTimer (by simp)

theorem push {ops : List Op} (hops : ∀ op ∈ ops, op.quiet = true) : Noise s (s.push ops) :=
  .mk ops s.idleTimer hops

theorem invoke (s : Adapter) (error : Bool) : Noise s (s.invoke error) := by
  unfold Adapter.invoke
  split
  · exact refl s
  · exact push (by cases error <;> simp [Op.quiet])

/-- What is called out for anything but a message returns. -/
theorem answered {callee : Callee} (hne : callee ≠ .onMessage) (a : Answer) :
    Noise s (s.answered callee a) := by
  cases callee with
  | onMessage => exact absurd rfl hne
  | onError => exact refl s
  | handler | socketClose =>
    cases a with
    | throws => exact push (by simp [Op.quiet])
    | value | promise => exact refl s

/-- While a drain is under way nothing else comes of a call. -/
theorem call (hd : s.draining = true) (hp : s.drainPromise.isSome = true) {c : Call}
    (hdispose : c ≠ .dispose) (hremote : c ≠ .remoteClose) : Noise s (s.call c) := by
  cases c with
  | message limited oversize =>
    change Noise s (s.handleMessage limited oversize)
    unfold Adapter.handleMessage
    split
    · exact .mk _ _ (by simp [Op.quiet])
    · unfold Adapter.handleRest
      rw [if_pos (show s.resetIdleTimer.draining = true from hd)]
      exact .mk [] _ (by simp)
  | send w =>
    change Noise s (s.send w)
    unfold Adapter.send
    rw [if_pos (Or.inr (Or.inl hd))]
    exact refl s
  | close => exact push (by simp [Op.quiet])
  | drain =>
    change Noise s s.drain
    unfold Adapter.drain
    rw [if_pos ⟨hd, hp⟩]
    exact refl s
  | dispose => exact absurd rfl hdispose
  | remoteClose => exact absurd rfl hremote

/-- Nor of a quiet operation, but for a `close`. -/
theorem perform (hd : s.draining = true) {op : Op} (hop : op.quiet = true) (hclose : op ≠ .close false) :
    Noise s (s.perform op) := by
  cases op with
  | out callee => exact push fun _ hmem => List.mem_singleton.mp hmem ▸ hop
  | invoke error => exact invoke s error
  | handleRest limited =>
    change Noise s (s.handleRest limited)
    unfold Adapter.handleRest
    rw [if_pos hd]
    exact refl s
  | close draining => cases draining <;> first | exact absurd rfl hclose | cases hop
  | flush | finishDrain | finish _ _ | closeRest | idleRest | resolve _ _ | drainRest _ | assign _ =>
    cases hop

end Noise

/-! ## What is pending -/

structure Clear (s : Adapter) : Prop where
  busy : s.busy ≤ s.pending
  closing : s.closes = 0 → ∀ op ∈ s.todo, op.closing = false

structure Books (s : Adapter) : Prop where
  busy : s.busy ≤ s.pending
  closing : s.closes = 0 → ∀ op ∈ s.todo.tail, op.closing = false

theorem Clear.books (h : Clear s) : Books s :=
  ⟨h.busy, fun hc op hop => h.closing hc op (List.mem_of_mem_tail hop)⟩

theorem Books.clear (h : Books s) (hout : Outside s) : Clear s := by
  refine ⟨h.busy, fun hc op hop => ?_⟩
  cases htodo : s.todo with
  | nil =>
    rw [htodo] at hop
    cases hop
  | cons first rest =>
    have hclosing := h.closing hc
    rw [htodo] at hop hclosing
    rcases List.mem_cons.mp hop with rfl | hop
    · obtain ⟨callee, rfl⟩ := hout op (by rw [htodo]; rfl)
      rfl
    · exact hclosing op hop

theorem Clear.push (h : Clear s) {ops : List Op} (hcount : ops.count (.out .onMessage) = 0)
    (hclosing : ∀ op ∈ ops.tail, op.closing = false) : Books (s.push ops) := by
  constructor
  · have hle := h.busy
    unfold Adapter.busy at *
    unfold Adapter.push
    rw [List.count_append, hcount, Nat.zero_add]
    exact hle
  · intro hc op hop
    cases ops with
    | nil => exact h.closing hc op (List.mem_of_mem_tail hop)
    | cons first ops =>
      rcases List.mem_append.mp (show op ∈ ops ++ s.todo from hop) with hop | hop
      · exact hclosing op hop
      · exact h.closing hc op hop

theorem Clear.noise (h : Clear s) (hn : Noise s s') : Books s' := by
  obtain ⟨ops, idle, hops⟩ := hn
  have h' : Clear { s with idleTimer := idle } := ⟨h.busy, h.closing⟩
  apply h'.push
  · exact List.count_eq_zero.mpr fun hmem => by cases hops _ hmem
  · exact fun op hop => Op.closing_of_quiet (hops op (List.mem_of_mem_tail hop))

theorem Clear.flushDrainWaiters (h : Clear s) : Books s.flushDrainWaiters := by
  unfold Adapter.flushDrainWaiters
  split
  · exact h.books
  · have h' : Clear { s with drainWaiters := [] } := ⟨h.busy, h.closing⟩
    apply h'.push
    · rw [List.count_eq_zero]
      intro hmem
      obtain ⟨d, -, hd⟩ := List.mem_map.mp hmem
      cases hd
    · intro op hop
      obtain ⟨d, -, rfl⟩ := List.mem_map.mp (List.mem_of_mem_tail hop)
      rfl

theorem Clear.finishDrain (h : Clear s) : Books s.finishDrain := by
  have h' : Clear { s with drainTimer := none, drainWaiters := [] } := ⟨h.busy, h.closing⟩
  apply h'.push
  · rw [List.count_eq_zero]
    intro hmem
    obtain ⟨d, -, hd⟩ := List.mem_map.mp hmem
    cases hd
  · intro op hop
    obtain ⟨d, -, rfl⟩ := List.mem_map.mp (List.mem_of_mem_tail hop)
    rfl

theorem Clear.handleRest (h : Clear s) (limited : Bool) : Books (s.handleRest limited) := by
  unfold Adapter.handleRest
  split
  · exact h.books
  · split
    · split
      · exact h.push rfl (by simp [Op.closing])
      · exact h.push rfl (by simp)
    · split
      · constructor
        · have hle := h.busy
          unfold Adapter.busy at *
          unfold Adapter.push
          rw [List.count_append, List.count_singleton_self]
          dsimp only
          omega
        · exact h.closing
      · exact h.books

theorem Clear.perform (h : Clear s) (hop : op ≠ .out .onMessage) : Books (s.perform op) := by
  cases op with
  | out callee =>
    have hcallee : callee ≠ .onMessage := fun hc => hop (hc ▸ rfl)
    exact h.push (by simp [hcallee]) (by simp)
  | invoke error => exact h.noise (.invoke s error)
  | handleRest limited => exact h.handleRest limited
  | flush => exact h.flushDrainWaiters
  | finishDrain => exact h.finishDrain
  | finish d ok =>
    have h' : Clear { s with
        drained := s.drained + 1
        drains := s.drains.modify d fun r => { r with finishes := r.finishes + 1 } } :=
      ⟨h.busy, h.closing⟩
    exact h'.push rfl (by simp [Op.closing])
  | close draining =>
    have h' : Clear s.clearTimers := ⟨h.busy, h.closing⟩
    unfold Adapter.perform
    dsimp only
    unfold Adapter.close
    split
    · exact h.books
    · split
      · refine ⟨h.busy, fun hc => ?_⟩
        exact absurd hc (Nat.succ_ne_zero _)
      · exact h'.push rfl (by simp)
  | closeRest =>
    have h' : Clear { s with state := .closed } := ⟨h.busy, h.closing⟩
    exact h'.push rfl (by simp)
  | idleRest =>
    have h' : Clear { s with state := .closed } := ⟨h.busy, h.closing⟩
    exact h'.push rfl (by simp [Op.closing])
  | resolve d ok => exact ⟨h.busy, h.books.closing⟩
  | drainRest d =>
    unfold Adapter.perform
    dsimp only
    unfold Adapter.drainRest
    split
    · exact h.push rfl (by simp [Op.closing])
    · exact ⟨h.busy, h.books.closing⟩
  | assign d => exact ⟨h.busy, h.books.closing⟩

theorem Books.pop (h : Books s) (htodo : s.todo = op :: rest) :
    Clear { s with todo := rest } := by
  constructor
  · have hle := h.busy
    unfold Adapter.busy at *
    rw [htodo, List.count_cons] at hle
    dsimp only
    omega
  · have hclosing := h.closing
    rw [htodo] at hclosing
    exact hclosing

theorem tick_eq (htodo : s.todo = op :: rest) :
    step s .tick = { s with todo := rest }.perform op := by
  unfold step
  rw [htodo]

theorem tick_out {callee : Callee} (htodo : s.todo = .out callee :: rest) :
    step s .tick = s := by
  rw [tick_eq htodo]
  unfold Adapter.perform Adapter.push
  dsimp only
  rw [List.singleton_append, ← htodo]

theorem Clear.call (h : Clear s) (c : Call) : Books (s.call c) := by
  cases c with
  | message limited oversize =>
    have h' : Clear s.resetIdleTimer := ⟨h.busy, h.closing⟩
    change Books (s.handleMessage limited oversize)
    unfold Adapter.handleMessage
    split
    · exact h'.push rfl (by simp [Op.closing])
    · exact h'.handleRest limited
  | send w =>
    have h' : Clear { s with pending := s.pending + 1 } := ⟨Nat.le_succ_of_le h.busy, h.closing⟩
    change Books (s.send w)
    unfold Adapter.send
    split
    · exact h.books
    · cases w with
      | refused => exact h.books
      | taken =>
        dsimp only
        split
        · refine ⟨?_, h.books.closing⟩
          have hle := h.busy
          unfold Adapter.busy at *
          dsimp only
          omega
        · exact h.books
      | throws =>
        dsimp only
        split
        · exact h'.push rfl (by simp)
        · exact h.push rfl (by simp)
  | close => exact h.push rfl (by simp)
  | drain =>
    change Books s.drain
    unfold Adapter.drain
    split
    · exact h.books
    · apply Clear.flushDrainWaiters
      refine ⟨?_, fun hc op hop => ?_⟩
      · have hle := h.busy
        unfold Adapter.busy Adapter.push at *
        dsimp only
        rw [List.singleton_append, List.count_cons_of_ne (by simp)]
        exact hle
      · rcases List.mem_cons.mp hop with rfl | hop
        · rfl
        · exact h.closing hc op hop
  | dispose =>
    change Books s.dispose
    unfold Adapter.dispose
    split
    · exact h.books
    · exact ⟨h.busy, h.books.closing⟩
  | remoteClose =>
    change Books s.handleClose
    unfold Adapter.handleClose
    split
    · exact h.books
    · refine ⟨h.busy, fun hc => ?_⟩
      dsimp only [Adapter.push] at hc
      split at hc
      · cases hc
      · next hne => exact absurd hc hne

theorem Clear.settles (h : Clear s) {handlers writes pending : ℕ} (rejects : Bool)
    (hle : handlers + writes + s.todo.count (.out .onMessage) ≤ pending) :
    Books ({ s with handlers, writes, pending }.push (Adapter.settled rejects)) := by
  have h' : Clear { s with handlers, writes, pending } := ⟨hle, h.closing⟩
  exact h'.push (by cases rejects <;> rfl) (by cases rejects <;> simp [Adapter.settled, Op.closing])

theorem step_books (h : Books s) (e : Event) : Books (step s e) := by
  cases e with
  | tick =>
    cases htodo : s.todo with
    | nil =>
      rw [step, htodo]
      exact h
    | cons op rest =>
      by_cases hop : op = .out .onMessage
      · rw [tick_out (hop ▸ htodo)]
        exact h
      · rw [tick_eq htodo]
        exact (h.pop htodo).perform hop
  | returns a =>
    rw [step]
    split
    · next callee rest htodo =>
      have hclear := h.pop htodo
      by_cases hmessage : callee = .onMessage
      · -- the handler does not run any more
        subst hmessage
        have hle := h.busy
        unfold Adapter.busy at hle
        rw [htodo, List.count_cons_self] at hle
        have hpending : s.handlers + s.writes + rest.count (.out .onMessage) ≤ s.pending - 1 := by omega
        cases a with
        | value => exact hclear.settles false hpending
        | throws => exact hclear.settles true hpending
        | promise =>
          refine ⟨?_, hclear.books.closing⟩
          unfold Adapter.answered Adapter.busy
          dsimp only
          omega
      · exact hclear.noise (.answered hmessage a)
    · exact h
  | call c =>
    rw [step]
    split
    · next hout => exact (h.clear hout).call c
    · exact h
  | turn t =>
    rw [step]
    split
    · next hnil =>
      have hclear : Clear s := h.clear fun op hop => by rw [hnil] at hop; cases hop
      have hle := h.busy
      unfold Adapter.busy at hle
      cases t with
      | handlerSettles rejects =>
        unfold Adapter.turn
        dsimp only
        split
        · exact h
        · exact hclear.settles rejects (by omega)
      | writeSettles rejects =>
        unfold Adapter.turn
        dsimp only
        split
        · exact h
        · exact hclear.settles rejects (by omega)
      | drainTimeout =>
        unfold Adapter.turn
        dsimp only
        split
        · exact h
        · have h' : Clear { s with drainTimer := none } := ⟨hclear.busy, hclear.closing⟩
          exact h'.push rfl (by simp)
      | idleTimeout =>
        unfold Adapter.turn
        dsimp only
        split
        · refine ⟨hclear.busy, fun hc => ?_⟩
          exact absurd hc (Nat.succ_ne_zero _)
        · exact h
    · exact h

/-! ## While no drain is under way -/

structure Still (drains : List Drain) (drained : ℕ) (promise : Option ℕ) (draining : Bool)
    (s : Adapter) : Prop where
  drains : s.drains = drains
  waiters : s.drainWaiters = []
  promise : s.drainPromise = promise
  draining : s.draining = draining
  timer : s.drainTimer = none
  drained : s.drained = drained
  plain : ∀ op ∈ s.todo, op.plain = true

section
variable {drains : List Drain} {drained : ℕ} {promise : Option ℕ} {draining : Bool}

section
variable (h : Still drains drained promise draining s)
include h

theorem Still.push {ops : List Op}
    (hops : ∀ op ∈ ops, op.plain = true) : Still drains drained promise draining (s.push ops) := by
  refine { h with plain := fun op hop => ?_ }
  rcases List.mem_append.mp hop with hop | hop
  · exact hops op hop
  · exact h.plain op hop

theorem Still.noise (hn : Noise s s') :
    Still drains drained promise draining s' := by
  obtain ⟨ops, idle, hops⟩ := hn
  have h' : Still drains drained promise draining { s with idleTimer := idle } := { h with }
  exact h'.push fun op hop => Op.plain_of_quiet (hops op hop)

theorem Still.handleRest (limited : Bool) :
    Still drains drained promise draining (s.handleRest limited) := by
  unfold Adapter.handleRest
  split
  · exact h
  · split
    · apply h.push
      split <;> simp [Op.plain]
    · split
      · have h' : Still drains drained promise draining { s with pending := s.pending + 1 } := { h with }
        exact h'.push (by simp [Op.plain])
      · exact h

theorem Still.closes (state : ReadyState) (closes : ℕ)
    {ops : List Op} (hops : ∀ op ∈ ops, op.plain = true) :
    Still drains drained promise draining ({ s.clearTimers with state, closes }.push ops) := by
  have h' : Still drains drained promise draining { s.clearTimers with state, closes } :=
    { h with timer := rfl }
  exact h'.push hops

theorem Still.perform {op : Op} (hop : op.plain = true) :
    Still drains drained promise draining (s.perform op) := by
  cases op with
  | out callee => exact h.push (by simp [Op.plain])
  | invoke error => exact h.noise (.invoke s error)
  | handleRest limited => exact h.handleRest limited
  | flush =>
    change Still drains drained promise draining s.flushDrainWaiters
    unfold Adapter.flushDrainWaiters
    rw [if_pos (Or.inr h.waiters)]
    exact h
  | finishDrain =>
    have h' : Still drains drained promise draining { s with drainTimer := none, drainWaiters := [] } :=
      { h with waiters := rfl, timer := rfl }
    refine h'.push fun op hop => ?_
    rw [h.waiters] at hop
    cases hop
  | close _ =>
    change Still drains drained promise draining s.close
    unfold Adapter.close
    split
    · exact h
    · split
      · exact h.closes s.state (s.closes + 1) (by simp [Op.plain])
      · exact h.closes s.state s.closes (by simp [Op.plain])
  | closeRest | idleRest =>
    have h' : Still drains drained promise draining { s with state := .closed } := { h with }
    exact h'.push (by simp [Op.plain])
  | finish _ _ | resolve _ _ | drainRest _ | assign _ => cases hop

theorem Still.settles (handlers writes pending : ℕ)
    (rejects : Bool) :
    Still drains drained promise draining
      ({ s with handlers, writes, pending }.push (Adapter.settled rejects)) := by
  have h' : Still drains drained promise draining { s with handlers, writes, pending } := { h with }
  exact h'.push (by cases rejects <;> simp [Adapter.settled, Op.plain])

theorem Still.answered (callee : Callee) (a : Answer) :
    Still drains drained promise draining (s.answered callee a) := by
  by_cases hmessage : callee = .onMessage
  · subst hmessage
    cases a with
    | value => exact h.settles _ _ _ false
    | promise => exact { h with }
    | throws => exact h.settles _ _ _ true
  · exact h.noise (.answered hmessage a)

theorem Still.call {c : Call}
    (hc : c = .drain → draining = true ∧ promise.isSome = true) :
    Still drains drained promise draining (s.call c) := by
  cases c with
  | message limited oversize =>
    have h' : Still drains drained promise draining s.resetIdleTimer := { h with }
    change Still drains drained promise draining (s.handleMessage limited oversize)
    unfold Adapter.handleMessage
    split
    · exact h'.push (by simp [Op.plain])
    · exact h'.handleRest limited
  | send w =>
    have hpending : Still drains drained promise draining { s with pending := s.pending + 1 } := { h with }
    change Still drains drained promise draining (s.send w)
    unfold Adapter.send
    split
    · exact h
    · cases w with
      | refused => exact h
      | taken =>
        dsimp only
        split
        · exact { h with }
        · exact h
      | throws =>
        dsimp only
        split
        · exact hpending.push (by simp [Op.plain])
        · exact h.push (by simp [Op.plain])
  | close => exact h.push (by simp [Op.plain])
  | drain =>
    change Still drains drained promise draining s.drain
    unfold Adapter.drain
    rw [h.draining, h.promise, if_pos (hc rfl)]
    exact h
  | dispose =>
    change Still drains drained promise draining s.dispose
    unfold Adapter.dispose
    split
    · exact h
    · exact { h with waiters := rfl, timer := rfl }
  | remoteClose =>
    change Still drains drained promise draining s.handleClose
    unfold Adapter.handleClose
    split
    · exact h
    · exact h.closes .closed _ (by simp [Op.plain])

theorem Still.turn (t : Turn) :
    Still drains drained promise draining (s.turn t) := by
  unfold Adapter.turn
  cases t with
  | handlerSettles rejects =>
    dsimp only
    split
    · exact h
    · exact h.settles _ _ _ rejects
  | writeSettles rejects =>
    dsimp only
    split
    · exact h
    · exact h.settles _ _ _ rejects
  | drainTimeout =>
    dsimp only
    rw [h.timer]
    exact h
  | idleTimeout =>
    dsimp only
    split
    · exact h.closes s.state (s.closes + 1) (by simp [Op.plain])
    · exact h

theorem Still.pop {op : Op} {rest : List Op}
    (htodo : s.todo = op :: rest) :
    Still drains drained promise draining { s with todo := rest } ∧ op.plain = true := by
  have hplain := h.plain
  rw [htodo] at hplain
  refine ⟨{ h with plain := ?_ }, hplain op List.mem_cons_self⟩
  exact fun op' hop => hplain op' (List.mem_cons_of_mem _ hop)

theorem Still.step (e : Event)
    (he : e = .call .drain → Outside s → draining = true ∧ promise.isSome = true) :
    Still drains drained promise draining (step s e) := by
  cases e with
  | tick =>
    cases htodo : s.todo with
    | nil =>
      rw [PowerSocketAdapter.step, htodo]
      exact h
    | cons op rest =>
      obtain ⟨hrest, hop⟩ := h.pop htodo
      rw [tick_eq htodo]
      exact hrest.perform hop
  | returns a =>
    rw [PowerSocketAdapter.step]
    split
    · next callee rest htodo => exact (h.pop htodo).1.answered callee a
    · exact h
  | call c =>
    rw [PowerSocketAdapter.step]
    split
    · next hout => exact h.call fun hc => he (hc ▸ rfl) hout
    · exact h
  | turn t =>
    rw [PowerSocketAdapter.step]
    split
    · exact h.turn t
    · exact h

end

end

/-! ## While a drain waits -/

structure Pledged (s : Adapter) : Prop where
  drains : s.drains = [{}]
  waiters : s.drainWaiters = [0]
  draining : s.draining = true
  drained : s.drained = 0
  disposed : s.disposed = false

def Live (s : Adapter) : Prop := s.state = .connecting ∨ s.state = .opened

theorem Live.not_closed (h : Live s) : s.state ≠ .closed := by
  rcases h with h | h <;> rw [h] <;> exact ReadyState.noConfusion

theorem Live.not_closing (h : Live s) : s.state ≠ .closing := by
  rcases h with h | h <;> rw [h] <;> exact ReadyState.noConfusion

/-- The call of `drain` is not over. -/
structure Asked (s : Adapter) (rest : List Op) : Prop extends Pledged s where
  todo : s.todo = .drainRest 0 :: rest
  live : Live s
  closes : s.closes = 0
  pending : 0 < s.pending
  plain : ∀ op ∈ rest, op.plain = true ∧ op.closing = false

structure Waiting (s : Adapter) : Prop extends Pledged s where
  promise : s.drainPromise = some 0
  live : Live s
  closes : s.closes = 0
  plain : ∀ op ∈ s.todo, op.plain = true ∧ op.closing = false
  flush : s.pending = 0 → s.todo.head? = some .flush

inductive Shuts (state : ReadyState) : List Op → Prop where
  | finishDrain (rest : List Op) (hstate : state = .closed) (hrest : ∀ op ∈ rest, op.plain = true) :
      Shuts state (.finishDrain :: rest)
  | closeRest (rest : List Op) (hrest : ∀ op ∈ rest, op.plain = true) : Shuts state (.closeRest :: rest)
  | idleRest (rest : List Op) (hrest : ∀ op ∈ rest, op.plain = true) : Shuts state (.idleRest :: rest)
  | quiet (op : Op) (rest : List Op) (hop : op.quiet = true) (h : Shuts state rest) :
      Shuts state (op :: rest)

structure Shutting (s : Adapter) : Prop extends Pledged s where
  promise : s.drainPromise = some 0
  stream : s.stream = false
  closes : s.closes = 1
  todo : Shuts s.state s.todo

theorem Shuts.plain {state : ReadyState} {ops : List Op} (h : Shuts state ops) :
    ∀ op ∈ ops, op.plain = true := by
  induction h with
  | finishDrain rest hstate hrest | closeRest rest hrest | idleRest rest hrest =>
    intro op hop
    rcases List.mem_cons.mp hop with rfl | hop
    · rfl
    · exact hrest op hop
  | quiet op rest hop h ih =>
    intro op' hop'
    rcases List.mem_cons.mp hop' with rfl | hop'
    · exact Op.plain_of_quiet hop
    · exact ih op' hop'

/-! ## While a drain ends -/

/-- The waiter has been taken, and its `finish` called so many times. -/
structure Taken (n : ℕ) (s : Adapter) : Prop where
  drains : s.drains = [{ finishes := n }]
  waiters : s.drainWaiters = []
  draining : s.draining = true
  promise : s.drainPromise = some 0
  drained : s.drained = n

def Closable (s : Adapter) : Prop :=
  s.closes = 0 ∧ Live s ∨ s.closes = 1 ∧ s.stream = false ∧ s.state = .closed

/-- `finish` is to be called: nothing is pending, or the adapter has been closed. -/
structure Called (s : Adapter) (ok : Option Bool) (rest : List Op) : Prop extends Taken 0 s where
  todo : s.todo = .finish 0 ok :: rest
  disposed : s.disposed = false
  closable : Closable s
  idle : ok = some true → s.pending = 0
  plain : ∀ op ∈ rest, op.plain = true

/-- `finish` has counted the drain, and is to close the socket. -/
structure Counted (s : Adapter) (pre : List Op) (ok : Bool) (rest : List Op) : Prop
    extends Taken 1 s where
  todo : s.todo = pre ++ .close true :: .resolve 0 ok :: rest
  pre : pre = [.finishDrain] ∨ pre = []
  disposed : s.disposed = false
  closable : Closable s
  idle : ok = true → s.pending = 0
  plain : ∀ op ∈ rest, op.plain = true

/-- The promise is resolved after operations that leave what is pending. -/
inductive Ends (ok : Bool) : List Op → Prop where
  | resolve (rest : List Op) (hrest : ∀ op ∈ rest, op.plain = true) : Ends ok (.resolve 0 ok :: rest)
  | calm (op : Op) (rest : List Op) (hop : op.quiet = true ∨ op = .closeRest ∨ op = .finishDrain)
      (h : Ends ok rest) : Ends ok (op :: rest)

structure Ending (s : Adapter) (ok : Bool) : Prop extends Taken 1 s where
  closes : s.closes = 1
  timer : s.drainTimer = none
  idle : ok = true → s.pending = 0
  todo : Ends ok s.todo

inductive Course (s : Adapter) : Prop where
  | before (h : Still [] 0 none false s)
  | asked (rest : List Op) (h : Asked s rest)
  | waiting (h : Waiting s)
  | shutting (h : Shutting s)
  | called (ok : Option Bool) (rest : List Op) (h : Called s ok rest)
  | counted (pre : List Op) (ok : Bool) (rest : List Op) (h : Counted s pre ok rest)
  | ending (ok : Bool) (h : Ending s ok)
  | after (r : Settlement) (hr : r.closes = 1 ∧ (r.ok = true → r.busy = 0))
      (h : Still [⟨1, some r⟩] 1 (some 0) true s)

/-! ## Steps -/

/-- While the adapter runs its own code, nothing else happens. -/
theorem step_inside (htodo : s.todo = op :: rest)
    (hop : ∀ callee, op ≠ .out callee) (he : e ≠ .tick) : step s e = s := by
  cases e with
  | tick => exact absurd rfl he
  | returns a =>
    rw [step, htodo]
    split
    · next callee _ heq =>
      obtain ⟨rfl, -⟩ := List.cons.inj heq
      exact absurd rfl (hop callee)
    · rfl
  | call c =>
    rw [step, if_neg]
    intro hout
    obtain ⟨callee, hc⟩ := hout op (by rw [htodo]; rfl)
    exact hop callee hc
  | turn t =>
    rw [step, if_neg]
    rw [htodo]
    exact List.cons_ne_nil _ _

theorem Before.step (hbooks : Books s) (h : Still [] 0 none false s) (he : Orderly s e) :
    Course (step s e) := by
  by_cases hdrain : e = .call .drain ∧ Outside s
  · obtain ⟨rfl, hout⟩ := hdrain
    have hnot : ¬ (s.draining = true ∧ s.drainPromise.isSome = true) := by
      rw [h.draining]
      exact fun hc => Bool.false_ne_true hc.1
    have hdrainable := he hout hnot
    have hclosing := (hbooks.clear hout).closing hdrainable.closes
    rw [PowerSocketAdapter.step, if_pos hout]
    refine .asked s.todo ?_
    change Asked s.drain s.todo
    unfold Adapter.drain
    rw [if_neg hnot, h.drains, h.waiters]
    unfold Adapter.flushDrainWaiters
    split
    · exact ⟨⟨rfl, rfl, rfl, h.drained, hdrainable.disposed⟩, rfl, hdrainable.state, hdrainable.closes,
        hdrainable.pending, fun op hop => ⟨h.plain op hop, hclosing op hop⟩⟩
    · next hno => exact absurd (Or.inl hdrainable.pending) hno
  · exact .before (h.step e fun hc hout => absurd ⟨hc, hout⟩ hdrain)

theorem Asked.step (h : Asked s rest) (e : Event) : Course (step s e) := by
  by_cases htick : e = .tick
  · subst htick
    rw [tick_eq h.todo]
    refine .waiting ?_
    change Waiting (Adapter.drainRest { s with todo := rest } 0)
    unfold Adapter.drainRest
    rw [if_neg (Nat.pos_iff_ne_zero.mp h.pending)]
    refine ⟨{ h with }, rfl, h.live, h.closes, h.plain, ?_⟩
    exact fun hzero => absurd hzero (Nat.pos_iff_ne_zero.mp h.pending)
  · rw [step_inside h.todo (fun _ => Op.noConfusion) htick]
    exact .asked rest h

theorem Pledged.unsettled (h : Pledged s) : Unsettled s :=
  ⟨{}, by rw [h.drains]; exact List.mem_singleton_self _, rfl⟩

section
variable (h : Waiting s)
include h

/-- What is pending of a drain that waits, when the next operation is not the flush. -/
theorem Waiting.pending (hflush : s.todo.head? ≠ some .flush) : 0 < s.pending :=
  Nat.pos_of_ne_zero fun hzero => hflush (h.flush hzero)

theorem Waiting.noise (hpending : 0 < s.pending) (hn : Noise s s') : Waiting s' := by
  obtain ⟨ops, idle, hops⟩ := hn
  refine { h with
    plain := fun op hop => ?_
    flush := fun hzero => absurd hzero (Nat.pos_iff_ne_zero.mp hpending) }
  rcases List.mem_append.mp hop with hop | hop
  · exact ⟨Op.plain_of_quiet (hops op hop), Op.closing_of_quiet (hops op hop)⟩
  · exact h.plain op hop

theorem Waiting.pop (htodo : s.todo = op :: rest)
    (hpending : 0 < s.pending) : Waiting { s with todo := rest } := by
  have hplain := h.plain
  rw [htodo] at hplain
  exact { h with
    plain := fun op' hop => hplain op' (List.mem_cons_of_mem _ hop)
    flush := fun hzero => absurd hzero (Nat.pos_iff_ne_zero.mp hpending) }

/-- Something that was pending is not any more, and the waiters are flushed. -/
theorem Waiting.settles (handlers writes : ℕ) (rejects : Bool) :
    Waiting ({ s with handlers, writes, pending := s.pending - 1 }.push (Adapter.settled rejects)) := by
  refine { h with plain := fun op hop => ?_, flush := fun _ => rfl }
  rcases List.mem_append.mp hop with hop | hop
  · cases rejects with
    | false =>
      obtain rfl := List.mem_singleton.mp hop
      exact ⟨rfl, rfl⟩
    | true =>
      rcases List.mem_cons.mp hop with rfl | hop
      · exact ⟨rfl, rfl⟩
      · obtain rfl := List.mem_singleton.mp hop
        exact ⟨rfl, rfl⟩
  · exact h.plain op hop

theorem Waiting.asked : s.drainPromise.isSome = true := by rw [h.promise]; rfl

theorem Waiting.tick (he : Orderly s .tick) : Course (step s .tick) := by
  cases htodo : s.todo with
  | nil =>
    rw [step, htodo]
    exact .waiting h
  | cons op rest =>
    have hop := h.plain op (by rw [htodo]; exact List.mem_cons_self)
    have hrest : ∀ op' ∈ rest, op'.plain = true := fun op' hmem =>
      (h.plain op' (by rw [htodo]; exact List.mem_cons_of_mem _ hmem)).1
    rw [tick_eq htodo]
    by_cases hflush : op = .flush
    · subst hflush
      change Course (Adapter.flushDrainWaiters { s with todo := rest })
      unfold Adapter.flushDrainWaiters
      by_cases hpending : 0 < s.pending
      · rw [if_pos (Or.inl hpending)]
        exact .waiting (h.pop htodo hpending)
      · rw [if_neg (by rw [h.waiters]; simpa using hpending)]
        refine .called (some true) rest ⟨{ h with waiters := rfl }, ?_, h.disposed,
          Or.inl ⟨h.closes, h.live⟩, fun _ => Nat.eq_zero_of_not_pos hpending, hrest⟩
        change (s.drainWaiters.map fun d => Op.finish d (some true)) ++ rest = _
        rw [h.waiters]
        rfl
    have hpending : 0 < s.pending := h.pending (by rw [htodo]; exact fun heq => hflush (Option.some.inj heq))
    have hpop := h.pop htodo hpending
    by_cases hclose : op = .close false
    · subst hclose
      obtain ⟨hstream, -⟩ := he (by rw [htodo]; rfl) h.disposed h.toPledged.unsettled
      change Course (Adapter.close { s with todo := rest })
      unfold Adapter.close
      rw [if_neg (by rw [h.disposed]; exact Bool.false_ne_true),
        if_pos (Or.inr ⟨h.live.not_closed, h.live.not_closing⟩)]
      refine .shutting { h with stream := hstream, closes := congrArg (· + 1) h.closes, todo := ?_ }
      exact .quiet _ _ rfl (.closeRest _ hrest)
    cases op with
    | out callee =>
      have hback := tick_out htodo
      rw [tick_eq htodo] at hback
      rw [hback]
      exact .waiting h
    | invoke _ | handleRest _ => exact .waiting (hpop.noise hpending (.perform hpop.draining rfl hclose))
    | flush => exact absurd rfl hflush
    | close draining => cases draining <;> first | exact absurd rfl hclose | exact absurd hop.1 Bool.false_ne_true
    | finishDrain | closeRest | idleRest => exact absurd hop.2.symm Bool.false_ne_true
    | finish _ _ | resolve _ _ | drainRest _ | assign _ => exact absurd hop.1 Bool.false_ne_true

/-- Nothing that would leave the waiters unserved comes while they wait. -/
theorem Waiting.not_none (hnone : s.drainWaiters = []) : False := by
  rw [h.waiters] at hnone
  cases hnone

theorem Waiting.step (he : Orderly s e) : Course (step s e) := by
  cases e with
  | tick => exact h.tick he
  | returns a =>
    rw [PowerSocketAdapter.step]
    split
    · next callee rest htodo =>
      have hpending : 0 < s.pending := h.pending (by rw [htodo]; exact fun heq => by cases heq)
      have hpop := h.pop htodo hpending
      refine .waiting ?_
      by_cases hmessage : callee = .onMessage
      · subst hmessage
        cases a with
        | value => exact hpop.settles s.handlers s.writes false
        | promise => exact { hpop with }
        | throws => exact hpop.settles s.handlers s.writes true
      · exact hpop.noise hpending (.answered hmessage a)
    · exact .waiting h
  | call c =>
    rw [PowerSocketAdapter.step]
    split
    · next hout =>
      have hpending : 0 < s.pending := by
        apply h.pending
        intro heq
        obtain ⟨callee, hc⟩ := hout .flush heq
        cases hc
      by_cases hdispose : c = .dispose
      · subst hdispose
        exact (h.not_none (he hout h.disposed)).elim
      by_cases hremote : c = .remoteClose
      · subst hremote
        have hstream : s.stream = false := by
          by_contra htrue
          exact h.not_none (he hout (by simpa using htrue) h.live.not_closed)
        change Course s.handleClose
        unfold Adapter.handleClose
        rw [if_neg h.live.not_closed, if_pos h.closes]
        refine .shutting { h with stream := hstream, closes := rfl, todo := ?_ }
        refine .finishDrain _ rfl fun op hop => ?_
        rcases List.mem_cons.mp hop with rfl | hop
        · rfl
        · exact (h.plain op hop).1
      exact .waiting (h.noise hpending (.call h.draining h.asked hdispose hremote))
    · exact .waiting h
  | turn t =>
    rw [PowerSocketAdapter.step]
    split
    · next hnil =>
      unfold Adapter.turn
      cases t with
      | handlerSettles rejects =>
        dsimp only
        split
        · exact .waiting h
        · exact .waiting (h.settles _ s.writes rejects)
      | writeSettles rejects =>
        dsimp only
        split
        · exact .waiting h
        · exact .waiting (h.settles s.handlers _ rejects)
      | drainTimeout =>
        dsimp only
        rw [he hnil]
        exact .waiting h
      | idleTimeout =>
        dsimp only
        split
        · next hidle =>
          have hstream : s.stream = false := by
            by_contra htrue
            exact h.not_none (he hnil hidle (by simpa using htrue))
          refine .shutting { h with stream := hstream, closes := congrArg (· + 1) h.closes, todo := ?_ }
          refine .quiet _ _ rfl (.idleRest _ fun op hop => ?_)
          exact (h.plain op hop).1
        · exact .waiting h
    · exact .waiting h

end

theorem Shutting.noise (h : Shutting s) (hn : Noise s s') : Shutting s' := by
  obtain ⟨ops, idle, hops⟩ := hn
  refine { h with todo := ?_ }
  show Shuts s.state (ops ++ s.todo)
  induction ops with
  | nil => exact h.todo
  | cons op ops ih =>
    exact .quiet op _ (hops op List.mem_cons_self) (ih fun op' hop => hops op' (List.mem_cons_of_mem _ hop))

theorem Shutting.quiet (h : Shutting s) (htodo : s.todo = op :: rest)
    (hop : op.quiet = true) (hrest : Shuts s.state rest) (he : Orderly s e) :
    Course (step s e) := by
  have hpop : Shutting { s with todo := rest } := { h with todo := hrest }
  cases e with
  | tick =>
    rw [tick_eq htodo]
    by_cases hclose : op = .close false
    · -- the socket is not closed a second time
      subst hclose
      have hclosed := (he (by rw [htodo]; rfl) h.disposed h.toPledged.unsettled).2.resolve_left
        (by rw [h.closes]; exact Nat.one_ne_zero)
      change Course (Adapter.close { s with todo := rest })
      unfold Adapter.close
      rw [if_neg (by rw [h.disposed]; exact Bool.false_ne_true),
        if_neg (by rw [h.stream]; simp [hclosed])]
      exact .shutting { h with todo := .closeRest rest hrest.plain }
    · exact .shutting (hpop.noise (.perform hpop.draining hop hclose))
  | returns a =>
    rw [PowerSocketAdapter.step]
    split
    · next callee rest' htodo' =>
      obtain ⟨rfl, rfl⟩ := List.cons.inj (htodo.symm.trans htodo')
      exact .shutting (hpop.noise (.answered (fun hmessage => by rw [hmessage] at hop; cases hop) a))
    · exact .shutting h
  | call c =>
    rw [PowerSocketAdapter.step]
    split
    · next hout =>
      by_cases hdispose : c = .dispose
      · subst hdispose
        have hnone := he hout h.disposed
        rw [h.waiters] at hnone
        cases hnone
      by_cases hremote : c = .remoteClose
      · subst hremote
        change Course s.handleClose
        unfold Adapter.handleClose
        split
        · exact .shutting h
        · rw [if_neg (by rw [h.closes]; exact Nat.one_ne_zero)]
          refine .shutting { h with todo := .finishDrain _ rfl fun op hop => ?_ }
          rcases List.mem_cons.mp hop with rfl | hop
          · rfl
          · exact h.todo.plain op hop
      exact .shutting (h.noise (.call h.draining (by rw [h.promise]; rfl) hdispose hremote))
    · exact .shutting h
  | turn t =>
    rw [PowerSocketAdapter.step, if_neg (by rw [htodo]; exact List.cons_ne_nil _ _)]
    exact .shutting h

theorem Shutting.step (h : Shutting s) (he : Orderly s e) : Course (step s e) := by
  have hshuts := h.todo
  cases htodo : s.todo with
  | nil =>
    rw [htodo] at hshuts
    cases hshuts
  | cons op rest =>
    rw [htodo] at hshuts
    by_cases hquiet : op.quiet = true ∧ Shuts s.state rest
    · exact h.quiet htodo hquiet.1 hquiet.2 he
    by_cases htick : e = .tick
    · subst htick
      rw [tick_eq htodo]
      cases hshuts with
      | finishDrain _ hstate hrest =>
        refine .called none rest ⟨{ h with waiters := rfl }, ?_, h.disposed,
          Or.inr ⟨h.closes, h.stream, hstate⟩, fun hok => (by cases hok), hrest⟩
        change (s.drainWaiters.map fun d => Op.finish d none) ++ rest = _
        rw [h.waiters]
        rfl
      | closeRest _ hrest => exact .shutting { h with todo := .finishDrain rest rfl hrest }
      | idleRest _ hrest =>
        refine .shutting { h with todo := .finishDrain _ rfl fun op hop => ?_ }
        rcases List.mem_cons.mp hop with rfl | hop
        · rfl
        · exact hrest op hop
      | quiet _ _ hop hrest => exact absurd ⟨hop, hrest⟩ hquiet
    · rw [step_inside htodo ?_ htick]
      · exact .shutting h
      · rintro callee rfl
        cases hshuts with
        | quiet _ _ hop hrest => exact absurd ⟨hop, hrest⟩ hquiet

theorem Called.step {ok : Option Bool} (h : Called s ok rest) (e : Event) :
    Course (step s e) := by
  by_cases htick : e = .tick
  · subst htick
    rw [tick_eq h.todo]
    refine .counted [.finishDrain] (ok.getD (decide (s.pending = 0))) rest ⟨⟨?_, h.waiters, h.draining, h.promise,
      congrArg (· + 1) h.drained⟩, rfl, Or.inl rfl, h.disposed, h.closable, ?_, h.plain⟩
    · change s.drains.modify 0 _ = _
      rw [h.drains]
      rfl
    · intro htrue
      cases ok with
      | none => exact of_decide_eq_true htrue
      | some b =>
        obtain rfl : b = true := htrue
        exact h.idle rfl
  · rw [step_inside h.todo (fun _ => Op.noConfusion) htick]
    exact .called ok rest h

theorem Counted.step {pre : List Op} (h : Counted s pre ok rest) (e : Event) :
    Course (step s e) := by
  have htodo := h.todo
  rcases h.pre with rfl | rfl
  · by_cases htick : e = .tick
    · subst htick
      rw [tick_eq htodo]
      refine .counted [] ok rest ⟨⟨h.drains, rfl, h.draining, h.promise, h.drained⟩, ?_, Or.inr rfl,
        h.disposed, h.closable, h.idle, h.plain⟩
      change (s.drainWaiters.map fun d => Op.finish d none) ++ _ = _
      rw [h.waiters]
      rfl
    · rw [step_inside htodo (fun _ => Op.noConfusion) htick]
      exact .counted _ ok rest h
  · by_cases htick : e = .tick
    · subst htick
      have hends : Ends ok (.resolve 0 ok :: rest) := .resolve rest h.plain
      rw [tick_eq htodo]
      change Course (Adapter.close { s with todo := .resolve 0 ok :: rest })
      unfold Adapter.close
      rw [if_neg (by rw [h.disposed]; exact Bool.false_ne_true)]
      rcases h.closable with ⟨hcloses, hlive⟩ | ⟨hcloses, hstream, hclosed⟩
      · rw [if_pos (Or.inr ⟨hlive.not_closed, hlive.not_closing⟩)]
        exact .ending ok ⟨{ h with }, congrArg (· + 1) hcloses,
          rfl, h.idle, .calm _ _ (Or.inl rfl) (.calm _ _ (Or.inr (Or.inl rfl)) hends)⟩
      · rw [if_neg (by rw [hstream]; simp [hclosed])]
        exact .ending ok ⟨{ h with }, hcloses, rfl, h.idle,
          .calm _ _ (Or.inr (Or.inl rfl)) hends⟩
    · rw [step_inside htodo (fun _ => Op.noConfusion) htick]
      exact .counted _ ok rest h

theorem Ending.noise (h : Ending s ok) (hn : Noise s s') : Ending s' ok := by
  obtain ⟨ops, idle, hops⟩ := hn
  refine { h with todo := ?_ }
  show Ends ok (ops ++ s.todo)
  induction ops with
  | nil => exact h.todo
  | cons op ops ih =>
    exact .calm op _ (Or.inl (hops op List.mem_cons_self))
      (ih fun op' hop => hops op' (List.mem_cons_of_mem _ hop))

theorem Ending.unsettled (h : Ending s ok) : Unsettled s :=
  ⟨{ finishes := 1 }, by rw [h.drains]; exact List.mem_singleton_self _, rfl⟩

/-- The next operation leaves what is pending. -/
theorem Ending.calm (h : Ending s ok) (htodo : s.todo = op :: rest)
    (hop : op.quiet = true ∨ op = .closeRest ∨ op = .finishDrain) (hrest : Ends ok rest)
    (he : Orderly s e) : Course (step s e) := by
  have hpop : Ending { s with todo := rest } ok := { h with todo := hrest }
  cases e with
  | tick =>
    rw [tick_eq htodo]
    rcases hop with hop | rfl | rfl
    · by_cases hclose : op = .close false
      · subst hclose
        change Course (Adapter.close { s with todo := rest })
        unfold Adapter.close
        split
        · exact .ending ok hpop
        · next hdisposed =>
          obtain ⟨hstream, hclosed⟩ := he (by rw [htodo]; rfl) (by simpa using hdisposed) h.unsettled
          have hclosed := hclosed.resolve_left (by rw [h.closes]; exact Nat.one_ne_zero)
          rw [if_neg (by rw [hstream]; simp [hclosed])]
          exact .ending ok { h with timer := rfl, todo := .calm _ _ (Or.inr (Or.inl rfl)) hrest }
      · exact .ending ok (hpop.noise (.perform hpop.draining hop hclose))
    · exact .ending ok { h with todo := .calm _ _ (Or.inr (Or.inr rfl)) hrest }
    · refine .ending ok { h with waiters := rfl, timer := rfl, todo := ?_ }
      change Ends ok ((s.drainWaiters.map fun d => Op.finish d none) ++ rest)
      rw [h.waiters]
      exact hrest
  | returns a =>
    rw [PowerSocketAdapter.step]
    split
    · next callee rest' htodo' =>
      obtain ⟨rfl, rfl⟩ := List.cons.inj (htodo.symm.trans htodo')
      refine .ending ok (hpop.noise (.answered (fun hmessage => ?_) a))
      rw [hmessage] at hop
      rcases hop with hop | hop | hop <;> cases hop
    · exact .ending ok h
  | call c =>
    rw [PowerSocketAdapter.step]
    split
    · by_cases hdispose : c = .dispose
      · subst hdispose
        change Course s.dispose
        unfold Adapter.dispose
        split
        · exact .ending ok h
        · exact .ending ok { h with waiters := rfl, timer := rfl }
      by_cases hremote : c = .remoteClose
      · subst hremote
        change Course s.handleClose
        unfold Adapter.handleClose
        split
        · exact .ending ok h
        · rw [if_neg (by rw [h.closes]; exact Nat.one_ne_zero)]
          exact .ending ok { h with
            timer := rfl
            todo := .calm _ _ (Or.inr (Or.inr rfl)) (.calm _ _ (Or.inl rfl) h.todo) }
      exact .ending ok (h.noise (.call h.draining (by rw [h.promise]; rfl) hdispose hremote))
    · exact .ending ok h
  | turn t =>
    rw [PowerSocketAdapter.step, if_neg (by rw [htodo]; exact List.cons_ne_nil _ _)]
    exact .ending ok h

theorem Ending.step (hbooks : Books s) (h : Ending s ok) (he : Orderly s e) :
    Course (step s e) := by
  have hends := h.todo
  cases htodo : s.todo with
  | nil =>
    rw [htodo] at hends
    cases hends
  | cons op rest =>
    rw [htodo] at hends
    cases hends with
    | calm _ _ hop hrest => exact h.calm htodo hop hrest he
    | resolve _ hrest =>
      by_cases htick : e = .tick
      · subst htick
        rw [tick_eq htodo]
        have hbusy := (hbooks.pop htodo).busy
        refine .after ⟨ok, Adapter.busy { s with todo := rest }, s.closes⟩ ⟨h.closes, fun hok => ?_⟩
          ⟨?_, h.waiters, h.promise, h.draining, ?_, h.drained, hrest⟩
        · have hzero : s.pending = 0 := h.idle hok
          exact Nat.eq_zero_of_le_zero (le_of_le_of_eq hbusy hzero)
        · change s.drains.modify 0 _ = _
          rw [h.drains]
          rfl
        · exact h.timer
      · rw [step_inside htodo (fun _ => Op.noConfusion) htick]
        exact .ending ok h

theorem After.step {r : Settlement} (hr : r.closes = 1 ∧ (r.ok = true → r.busy = 0))
    (h : Still [⟨1, some r⟩] 1 (some 0) true s) (e : Event) : Course (step s e) :=
  .after r hr (h.step e fun _ _ => ⟨rfl, rfl⟩)

theorem Course.step (hbooks : Books s) (h : Course s) (he : Orderly s e) :
    Course (step s e) := by
  cases h with
  | before h => exact Before.step hbooks h he
  | asked rest h => exact h.step e
  | waiting h | shutting h => exact h.step he
  | called ok rest h | counted pre ok rest h => exact h.step e
  | ending ok h => exact h.step hbooks he
  | after r hr h => exact After.step hr h e

/-- One drain that is not settled, while there is something left to do or the socket is
there. -/
theorem rights_of_unsettled {n : ℕ} (hn : n ≤ 1) (hdrains : s.drains = [{ finishes := n }])
    (hdrained : s.drained = n)
    (h : s.todo = [] → n = 0 ∧ s.state ≠ .closed ∧ s.disposed = false) : DrainsRight s := by
  refine ⟨?_, ?_, ?_⟩
  · intro d hd
    rw [hdrains] at hd
    obtain rfl := List.mem_singleton.mp hd
    exact hn
  · rw [hdrains, hdrained]
    rfl
  · intro hnil d hd _
    rw [hdrains] at hd
    obtain rfl := List.mem_singleton.mp hd
    exact h hnil

theorem Course.right (h : Course s) : DrainsRight s := by
  cases h with
  | before h =>
    refine ⟨?_, ?_, ?_⟩
    · rw [h.drains]
      exact fun d hd => absurd hd List.not_mem_nil
    · rw [h.drains, h.drained]
      rfl
    · rw [h.drains]
      exact fun _ d hd => absurd hd List.not_mem_nil
  | asked rest h =>
    refine rights_of_unsettled (Nat.zero_le 1) h.drains h.drained fun hnil => ?_
    rw [h.todo] at hnil
    cases hnil
  | waiting h =>
    exact rights_of_unsettled (Nat.zero_le 1) h.drains h.drained fun _ =>
      ⟨rfl, h.live.not_closed, h.disposed⟩
  | shutting h =>
    refine rights_of_unsettled (Nat.zero_le 1) h.drains h.drained fun hnil => ?_
    have hshuts := h.todo
    rw [hnil] at hshuts
    cases hshuts
  | called ok rest h =>
    refine rights_of_unsettled (Nat.zero_le 1) h.drains h.drained fun hnil => ?_
    rw [h.todo] at hnil
    cases hnil
  | counted pre ok rest h =>
    refine rights_of_unsettled (Nat.le_refl 1) h.drains h.drained fun hnil => ?_
    rw [h.todo] at hnil
    exact absurd (List.append_eq_nil_iff.mp hnil).2 (List.cons_ne_nil _ _)
  | ending ok h =>
    refine rights_of_unsettled (Nat.le_refl 1) h.drains h.drained fun hnil => ?_
    have hends := h.todo
    rw [hnil] at hends
    cases hends
  | after r hr h =>
    refine ⟨?_, ?_, ?_⟩
    · intro d hd
      rw [h.drains] at hd
      obtain rfl := List.mem_singleton.mp hd
      exact ⟨rfl, hr⟩
    · rw [h.drains, h.drained]
      rfl
    · intro _ d hd hnone
      rw [h.drains] at hd
      obtain rfl := List.mem_singleton.mp hd
      cases hnone

/-- In every run of any adapter that keeps to order, every drain is resolved with `true` only
with nothing pending, is counted once and closes its socket once, and is settled when the
adapter is closed or disposed. -/
theorem drains_once (config : Config) (state : ReadyState) (es : List Event)
    (h : Meets step Orderly (new config state) es) : Always step DrainsRight (new config state) es := by
  have hstep : ∀ (s : Adapter) (e : Event), Books s ∧ Course s → Orderly s e →
      Books (step s e) ∧ Course (step s e) := fun s e hs he =>
    ⟨step_books hs.1 e, hs.2.step hs.1 he⟩
  have hstart : Books (new config state) ∧ Course (new config state) := by
    refine ⟨⟨Nat.le_refl 0, fun _ op hop => absurd hop List.not_mem_nil⟩, .before ?_⟩
    exact ⟨rfl, rfl, rfl, rfl, rfl, rfl, fun op hop => absurd hop List.not_mem_nil⟩
  exact (always_of_meets hstep hstart h).mono fun s hs => hs.2.right

/-- A drain waits for a handler. -/
theorem drains_once_handler :
    Always step DrainsRight (new {} .opened)
      [.call (.message false false), .returns .promise, .call .drain, .tick, .turn (.handlerSettles false),
        .tick, .tick, .tick, .tick, .call .remoteClose, .tick, .tick, .returns .value, .returns .value, .tick,
        .tick, .tick] :=
  drains_once {} .opened _ (by decide)

/-- A drain with nothing pending is counted twice. -/
theorem idle_drain_counted_twice :
    ¬ Always step DrainsRight (new {} .opened)
      [.call .drain, .tick, .tick, .tick, .returns .value, .tick, .tick, .tick, .tick, .tick] := by
  intro h
  have htwice : (run step (new {} .opened)
      [.call .drain, .tick, .tick, .tick, .returns .value, .tick, .tick, .tick, .tick, .tick]).drains =
        [⟨2, some ⟨true, 0, 1⟩⟩] := by decide
  have hright := h.last.right ⟨2, some ⟨true, 0, 1⟩⟩ (by rw [htwice]; exact List.mem_singleton_self _)
  exact absurd hright.1 (by decide)

end PerformanceHelpers.PowerSocketAdapter
