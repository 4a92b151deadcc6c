import PerformanceHelpers.Number
import PerformanceHelpers.Options
import PerformanceHelpers.Run

/- `PowerSequencer` (`src/helpers/powerSequencer.js`): messages that come in any order go out
   in the order of their numbers, over exact integers.

   `onMessage` may push, so a release is suspended while it runs: it goes on where the
   callback returns (or throws, which is the same). A run is a list of calls and of such
   returns, at any depth. What `onGap` pushes comes after the push that called it has done
   its work, and is a call like another.

   What is proved:
     1. `release_spec` — a release takes out the next numbers, and goes on until the next one
        is not there or `onMessage` has it.
     2. `in_order` — in every run what went out is `startAt`, `startAt + 1`, ..., each with what
        the first accepted push of its number brought, and the buffer holds numbers of the
        window only, without the next one when no release is suspended. While `onMessage` runs
        it may hold the next one too (`next_is_buffered`). -/
namespace PerformanceHelpers.Sequencer

variable {P : Type}

/-- A `Map` from numbers to payloads. Its order is not read. -/
abbrev Buffer (P : Type) := AList fun _ : ℤ => P

structure Sequencer (P : Type) where
  windowSize : ℚ
  startAt : ℤ
  /-- Whether there is an `onGap`. -/
  onGap : Bool
  /-- Whether there is an `onMessage`. -/
  onMessage : Bool
  buffer : Buffer P
  next : ℤ
  disposed : Bool
  delivered : ℕ
  duplicates : ℕ
  outOfWindow : ℕ
  gapsOpened : ℕ

structure Options where
  windowSize : Option ℚ := none
  startAt : Option ℤ := none
  onGap : Bool := false
  onMessage : Bool := false

/-- The constructor. -/
def new (o : Options) : Except String (Sequencer P) := do
  let windowSize ← assertLimitRequired o.windowSize "windowSize" "PowerSequencer" 1 64
  let startAt ← assertLimitRequired o.startAt "startAt" "PowerSequencer" 0 0
  pure { windowSize, startAt, onGap := o.onGap, onMessage := o.onMessage, buffer := ∅, next := startAt
         disposed := false, delivered := 0, duplicates := 0, outOfWindow := 0, gapsOpened := 0 }

/-- The loop of `missing`: one number after the other, to the first that is not there. Of one
number more than are buffered, one is not. -/
def firstAbsent (buffer : Buffer P) : ℕ → ℤ → ℤ
  | 0, seq => seq
  | turns + 1, seq => if seq ∈ buffer then firstAbsent buffer turns (seq + 1) else seq

def missing (q : Sequencer P) : List ℤ := [firstAbsent q.buffer q.buffer.keys.length q.next]

def integerError (seq : Number) : String :=
  s!"PowerSequencer: `seq` must be an integer (received {seq}). " ++
    "A fractional sequence number would be renumbered by any " ++
    "floor, silently shifting every message after it."

structure State (P : Type) where
  sequencer : Sequencer P
  /-- The releases that `onMessage` has suspended. -/
  releasing : ℕ
  /-- The pushes that were accepted, and the messages that went out, since the last reset. -/
  accepted : List (ℤ × P)
  released : List (ℤ × P)
  /-- What `onGap` was called with. -/
  gaps : List (ℤ × List ℤ)

/-- A sequencer that nothing was pushed to. -/
def start (q : Sequencer P) : State P := ⟨q, 0, [], [], []⟩

def takeNext (s : State P) (payload : P) : State P :=
  { s with
    sequencer := { s.sequencer with
      buffer := s.sequencer.buffer.erase s.sequencer.next
      next := s.sequencer.next + 1
      delivered := s.sequencer.delivered + 1 }
    released := s.released ++ [(s.sequencer.next, payload)] }

/-- `_release`, up to a call of `onMessage`. Every turn takes a message out of the buffer. -/
def release : ℕ → State P → State P
  | 0, s => s
  | turns + 1, s =>
    match s.sequencer.buffer.lookup s.sequencer.next with
    | none => s
    | some payload =>
      let s := takeNext s payload
      if s.sequencer.onMessage then { s with releasing := s.releasing + 1 } else release turns s

/-- `_release` from its start, or from where `onMessage` has returned. -/
def releaseAll (s : State P) : State P := release s.sequencer.buffer.keys.length s

/-- Whether messages are buffered, and not the next one. -/
def hasGap (q : Sequencer P) : Bool := decide (0 < q.buffer.keys.length) && decide (q.next ∉ q.buffer)

def noteGap (s : State P) (n : ℤ) (hadGap : Bool) : State P :=
  if n ≠ s.sequencer.next ∧ !hadGap ∧ hasGap s.sequencer then
    { s with
      sequencer := { s.sequencer with gapsOpened := s.sequencer.gapsOpened + 1 }
      gaps := if s.sequencer.onGap then s.gaps ++ [(n, missing s.sequencer)] else s.gaps }
  else s

def accept (s : State P) (n : ℤ) (payload : P) : State P :=
  { s with
    sequencer := { s.sequencer with buffer := s.sequencer.buffer.insert n payload }
    accepted := s.accepted ++ [(n, payload)] }

def pushInteger (s : State P) (n : ℤ) (payload : P) : State P × Bool :=
  let q := s.sequencer
  if n < q.next then ({ s with sequencer := { q with duplicates := q.duplicates + 1 } }, false)
  else if q.next + q.windowSize ≤ n then
    ({ s with sequencer := { q with outOfWindow := q.outOfWindow + 1 } }, false)
  else if n ∈ q.buffer then ({ s with sequencer := { q with duplicates := q.duplicates + 1 } }, false)
  else
    let s := noteGap (accept s n payload) n (hasGap q)
    (if n = q.next then releaseAll s else s, true)

def push (s : State P) (seq : Number) (payload : P) : State P × Except String Bool :=
  if s.sequencer.disposed then (s, .ok false)
  else match seq with
    | .finite q =>
      if q.den = 1 then
        let r := pushInteger s q.num payload
        (r.1, .ok r.2)
      else (s, .error (integerError seq))
    | _ => (s, .error (integerError seq))

/-- `reset`, and `clear`. -/
def reset (s : State P) : State P :=
  { s with
    sequencer := { s.sequencer with
      buffer := ∅, next := s.sequencer.startAt, delivered := 0, duplicates := 0, outOfWindow := 0
      gapsOpened := 0 }
    accepted := []
    released := [] }

def dispose (s : State P) : State P :=
  if s.sequencer.disposed then s
  else { s with sequencer := { s.sequencer with
    disposed := true, buffer := ∅, onGap := false, onMessage := false } }

/-- What happens to a sequencer: a call, from anywhere, or the return of the `onMessage` that was
called last. -/
inductive Event (P : Type) where
  | push (seq : Number) (payload : P)
  | returns
  | reset
  | dispose

def step (s : State P) : Event P → State P
  | .push seq payload => (push s seq payload).1
  | .returns => if 0 < s.releasing then releaseAll { s with releasing := s.releasing - 1 } else s
  | .reset => reset s
  | .dispose => dispose s

/-! ## What a release does -/

def FirstAccepted (s : State P) (n : ℤ) (payload : P) : Prop :=
  s.accepted.find? (fun a => a.1 = n) = some (n, payload)

structure Ordered (s : State P) : Prop where
  released : s.released.map Prod.fst =
    (List.range s.released.length).map fun (i : ℕ) => s.sequencer.startAt + (i : ℤ)
  next : s.sequencer.next = s.sequencer.startAt + s.released.length
  delivered : s.sequencer.delivered = s.released.length
  payload : ∀ a ∈ s.released, FirstAccepted s a.1 a.2
  buffered : ∀ n payload, s.sequencer.buffer.lookup n = some payload → FirstAccepted s n payload
  window : ∀ n ∈ s.sequencer.buffer,
    s.sequencer.next ≤ n ∧ (n : ℚ) < s.sequencer.next + s.sequencer.windowSize
  /-- What was accepted has gone out, or is buffered. -/
  kept : s.sequencer.disposed = false → ∀ a ∈ s.accepted, a.1 < s.sequencer.next ∨ a.1 ∈ s.sequencer.buffer

def Waits (s : State P) : Prop := s.sequencer.next ∉ s.sequencer.buffer

section
variable {s : State P} {n : ℤ} {payload : P}

theorem Ordered.takeNext (h : Ordered s) (hnext : s.sequencer.buffer.lookup s.sequencer.next = some payload) :
    Ordered (takeNext s payload) := by
  refine ⟨?_, ?_, ?_, ?_, ?_, ?_, ?_⟩
  · simp only [Sequencer.takeNext, List.map_append, List.length_append, List.length_singleton,
      List.range_succ, h.released, h.next, List.map_singleton]
  · simp only [Sequencer.takeNext, List.length_append, List.length_singleton, h.next]
    push_cast
    omega
  · simp [Sequencer.takeNext, h.delivered]
  · intro a ha
    rcases List.mem_append.mp ha with ha | ha
    · exact h.payload a ha
    · obtain rfl := List.mem_singleton.mp ha
      exact h.buffered _ _ hnext
  · intro n p hn
    have hne : n ≠ s.sequencer.next := by
      rintro rfl
      simp [Sequencer.takeNext] at hn
    simp only [Sequencer.takeNext, AList.lookup_erase_ne hne] at hn
    exact h.buffered n p hn
  · intro n hn
    obtain ⟨hne, hn⟩ := AList.mem_erase.mp hn
    obtain ⟨hle, hlt⟩ := h.window n hn
    simp only [Sequencer.takeNext]
    refine ⟨by omega, ?_⟩
    push_cast
    linarith
  · intro hlive a ha
    simp only [Sequencer.takeNext, AList.mem_erase]
    have := h.kept hlive a ha
    by_cases hne : a.1 = s.sequencer.next
    · exact Or.inl (by omega)
    · exact this.imp (fun hlt => by omega) fun hmem => ⟨hne, hmem⟩

/-- How many messages are buffered goes down with every one that goes out. -/
theorem length_takeNext (hnext : s.sequencer.buffer.lookup s.sequencer.next = some payload) :
    (takeNext s payload).sequencer.buffer.keys.length + 1 = s.sequencer.buffer.keys.length := by
  have hmem : s.sequencer.next ∈ s.sequencer.buffer.keys := by
    rw [← AList.mem_keys, ← AList.lookup_isSome, hnext]
    rfl
  simp only [Sequencer.takeNext, AList.keys_erase]
  rw [List.length_erase_of_mem hmem]
  have := List.length_pos_of_mem hmem
  omega

/-- A release goes on to the end, or to a call of `onMessage`. -/
theorem release_spec (h : Ordered s) (turns : ℕ) (hturns : s.sequencer.buffer.keys.length ≤ turns) :
    Ordered (release turns s) ∧ ((release turns s).releasing = 0 → s.releasing = 0 ∧ Waits (release turns s)) := by
  induction turns generalizing s with
  | zero =>
    refine ⟨h, fun h0 => ⟨h0, fun hmem => ?_⟩⟩
    have := List.length_pos_of_mem (AList.mem_keys.mp hmem)
    simp only [release] at this
    omega
  | succ turns ih =>
    rw [release]
    cases hnext : s.sequencer.buffer.lookup s.sequencer.next with
    | none => exact ⟨h, fun h0 => ⟨h0, AList.lookup_eq_none.mp hnext⟩⟩
    | some payload =>
      have htaken := h.takeNext hnext
      have hlength := length_takeNext hnext
      dsimp only
      split
      · refine ⟨{ htaken with }, fun h0 => ?_⟩
        exact absurd h0 (Nat.succ_ne_zero _)
      · exact ih htaken (by omega)

theorem releaseAll_spec (h : Ordered s) :
    Ordered (releaseAll s) ∧ ((releaseAll s).releasing = 0 → s.releasing = 0 ∧ Waits (releaseAll s)) :=
  release_spec h _ le_rfl

/-! ## The calls -/

/-- A number that is accepted is new: the push is the first one of its number. -/
theorem Ordered.accept (payload : P) (h : Ordered s) (hlive : s.sequencer.disposed = false)
    (hle : s.sequencer.next ≤ n) (hlt : (n : ℚ) < s.sequencer.next + s.sequencer.windowSize)
    (hnew : n ∉ s.sequencer.buffer) :
    Ordered (accept s n payload) := by
  have hfirst : ∀ a ∈ s.accepted, a.1 ≠ n := by
    rintro a ha rfl
    rcases h.kept hlive a ha with hlt' | hmem
    · omega
    · exact hnew hmem
  have hold : ∀ {m p}, FirstAccepted s m p → FirstAccepted (Sequencer.accept s n payload) m p := by
    intro m p hm
    simp only [FirstAccepted, Sequencer.accept, List.find?_append] at hm ⊢
    rw [hm]
    rfl
  refine ⟨h.released, h.next, h.delivered, fun a ha => hold (h.payload a ha), fun m p hm => ?_,
    fun m hm => ?_, fun _ a ha => ?_⟩
  · by_cases hmn : m = n
    · subst hmn
      simp only [Sequencer.accept, AList.lookup_insert, Option.some.injEq] at hm
      subst hm
      have hnone : s.accepted.find? (fun a => a.1 = m) = none := by
        rw [List.find?_eq_none]
        intro a ha
        simpa using hfirst a ha
      simp [FirstAccepted, Sequencer.accept, List.find?_append, hnone]
    · simp only [Sequencer.accept, AList.lookup_insert_ne hmn] at hm
      exact hold (h.buffered m p hm)
  · rcases (AList.mem_insert _).mp hm with rfl | hm
    · exact ⟨hle, hlt⟩
    · exact h.window m hm
  · simp only [Sequencer.accept, AList.mem_insert]
    rcases List.mem_append.mp ha with ha | ha
    · exact (h.kept hlive a ha).imp_right Or.inr
    · obtain rfl := List.mem_singleton.mp ha
      exact Or.inr (Or.inl rfl)

/-- A report changes nothing that is ordered. -/
theorem Ordered.noteGap (h : Ordered s) (hadGap : Bool) : Ordered (noteGap s n hadGap) := by
  unfold Sequencer.noteGap
  split
  · exact { h with }
  · exact h

theorem Waits.noteGap (h : Waits s) (hadGap : Bool) : Waits (noteGap s n hadGap) := by
  unfold Sequencer.noteGap
  split
  · exact h
  · exact h

theorem noteGap_releasing (s : State P) (n : ℤ) (hadGap : Bool) :
    (noteGap s n hadGap).releasing = s.releasing := by
  unfold Sequencer.noteGap
  split <;> rfl

/-- What every call keeps: what is in order, and no message held back when no release is
suspended. -/
def Settled (s : State P) : Prop := Ordered s ∧ (s.releasing = 0 → Waits s)

theorem settled_pushInteger (h : Settled s) (hlive : s.sequencer.disposed = false) (n : ℤ) (payload : P) :
    Settled (pushInteger s n payload).1 := by
  obtain ⟨hordered, hwaits⟩ := h
  -- a refusal only counts
  have hcount : ∀ (duplicates outOfWindow : ℕ), Settled { s with sequencer :=
      { s.sequencer with duplicates := duplicates, outOfWindow := outOfWindow } } := fun _ _ =>
    ⟨{ hordered with }, hwaits⟩
  unfold pushInteger
  dsimp only
  split
  · exact hcount _ _
  split
  · exact hcount _ _
  split
  · exact hcount _ _
  · next hle hlt hnew =>
    have haccept := hordered.accept payload hlive (not_lt.mp hle) (not_le.mp hlt) hnew
    have hnoted := haccept.noteGap (n := n) (hasGap s.sequencer)
    have hreleasing := noteGap_releasing (accept s n payload) n (hasGap s.sequencer)
    dsimp only
    split
    · obtain ⟨hreleased, hdone⟩ := releaseAll_spec hnoted
      exact ⟨hreleased, fun h0 => (hdone h0).2⟩
    · next hne =>
      refine ⟨hnoted, fun h0 => ?_⟩
      have h0' : s.releasing = 0 := hreleasing.symm.trans h0
      apply Waits.noteGap
      intro hmem
      rcases (AList.mem_insert _).mp hmem with heq | hmem
      · exact hne heq.symm
      · exact hwaits h0' hmem

theorem settled_step (h : Settled s) (e : Event P) : Settled (step s e) := by
  cases e with
  | push seq payload =>
    simp only [step, push]
    split
    · exact h
    · next hlive =>
      split
      · split
        · exact settled_pushInteger h (by simpa using hlive) _ payload
        · exact h
      · exact h
  | returns =>
    simp only [step]
    split
    · obtain ⟨hreleased, hdone⟩ := releaseAll_spec (s := { s with releasing := s.releasing - 1 })
        ⟨h.1.released, h.1.next, h.1.delivered, h.1.payload, h.1.buffered, h.1.window, h.1.kept⟩
      exact ⟨hreleased, fun h0 => (hdone h0).2⟩
    · exact h
  | reset =>
    refine ⟨⟨rfl, by simp [step, reset], rfl, ?_, ?_, ?_, ?_⟩, ?_⟩
    · simp [step, reset]
    · simp [step, reset]
    · simp [step, reset]
    · simp [step, reset]
    · simp [step, reset, Waits]
  | dispose =>
    simp only [step, dispose]
    split
    · exact h
    · refine ⟨⟨h.1.released, h.1.next, h.1.delivered, h.1.payload, ?_, ?_, ?_⟩, fun _ => ?_⟩
      · simp
      · simp
      · simp
      · simp [Waits]

end

/-! ## Runs -/

/-- What went out is in order, and what is buffered is of the window. -/
structure InOrder (s : State P) : Prop where
  /-- The numbers from `startAt` on, one after the other. -/
  released : s.released.map Prod.fst =
    (List.range s.released.length).map fun (i : ℕ) => s.sequencer.startAt + (i : ℤ)
  payload : ∀ a ∈ s.released, FirstAccepted s a.1 a.2
  next : s.sequencer.next - s.sequencer.startAt = s.released.length
  delivered : s.sequencer.delivered = s.released.length
  window : ∀ n ∈ s.sequencer.buffer,
    s.sequencer.next ≤ n ∧ (n : ℚ) < s.sequencer.next + s.sequencer.windowSize
  settled : s.releasing = 0 → ∀ n ∈ s.sequencer.buffer, s.sequencer.next < n
  /-- Nothing that may go out is held back. -/
  complete : s.releasing = 0 → s.sequencer.disposed = false → ∀ a ∈ s.accepted, a.1 ≠ s.sequencer.next

theorem Settled.inOrder {s : State P} (h : Settled s) : InOrder s := by
  obtain ⟨hordered, hwaits⟩ := h
  refine ⟨hordered.released, hordered.payload, ?_, hordered.delivered, hordered.window, ?_, ?_⟩
  · rw [hordered.next]
    omega
  · intro h0 n hn
    have hne : n ≠ s.sequencer.next := by
      rintro rfl
      exact hwaits h0 hn
    have := (hordered.window n hn).1
    omega
  · rintro h0 hlive a ha heq
    rcases hordered.kept hlive a ha with hlt | hmem
    · omega
    · exact hwaits h0 (heq ▸ hmem)

theorem settled_start {o : Options} {q : Sequencer P} (hnew : new o = .ok q) : Settled (start q) := by
  obtain ⟨windowSize, -, hnew⟩ := bind_eq_ok.mp hnew
  obtain ⟨startAt, -, hnew⟩ := bind_eq_ok.mp hnew
  cases hnew
  refine ⟨⟨rfl, by simp [start], rfl, ?_, ?_, ?_, ?_⟩, ?_⟩
  · simp [start]
  · simp [start]
  · simp [start]
  · simp [start]
  · simp [start, Waits]

theorem in_order {o : Options} {q : Sequencer P} (hnew : new o = .ok q) (es : List (Event P)) :
    Always step InOrder (start q) es := by
  have hrun := always_of_step (P := Settled) (fun _ e h => settled_step h e) (settled_start hnew) es
  exact hrun.mono fun _ h => h.inOrder

/-- Two messages in the wrong order, with an `onMessage`. -/
def swapped : List (Event String) := [.push (.finite 1) "b", .push (.finite 0) "a"]

def fromZero : Sequencer String :=
  { windowSize := 64, startAt := 0, onGap := false, onMessage := true, buffer := ∅, next := 0
    disposed := false, delivered := 0, duplicates := 0, outOfWindow := 0, gapsOpened := 0 }

theorem new_fromZero : new { onMessage := true } = .ok fromZero := rfl

theorem in_order_swapped : Always step InOrder (start fromZero) (swapped ++ [.returns, .returns]) :=
  in_order new_fromZero _

/-- While `onMessage` has the first message, the second is buffered and is the next one. -/
theorem next_is_buffered : new { onMessage := true } = .ok fromZero ∧
    ¬Always step (fun s => ∀ n ∈ s.sequencer.buffer, s.sequencer.next < n ∧
      (n : ℚ) < s.sequencer.next + s.sequencer.windowSize) (start fromZero) swapped := by
  refine ⟨rfl, fun h => ?_⟩
  have hmem : (1 : ℤ) ∈ (run step (start fromZero) swapped).sequencer.buffer := by decide +kernel
  have hnext := (h.last 1 hmem).1
  revert hnext
  decide +kernel

end PerformanceHelpers.Sequencer
