import PerformanceHelpers.Sequencer

/- The numbers that `PowerSequencer` waits on (`src/helpers/powerSequencer.js`).

   `missing` goes along the numbers from the next one on and stops at the first that is not
   buffered, so that it answers one number, in every state. That is the hole in what is buffered
   when there is one only, and with no hole it is the number after what is buffered
   (`missing_waited`).

   `onGap` is called by a push that leaves a gap where there was none. A release that stops at a gap
   is a push of the next number, and calls nothing: what was asked for then is the hole before
   (`asks_for_next`, `gap_not_asked`). -/
namespace PerformanceHelpers.Sequencer

variable {P : Type}

structure Stats where
  nextExpected : ℤ
  buffered : ℕ
  missing : ℕ
  delivered : ℕ
  duplicates : ℕ
  outOfWindow : ℕ
  gapsOpened : ℕ
  windowSize : ℚ

def stats (q : Sequencer P) : Stats where
  nextExpected := q.next
  buffered := q.buffer.keys.length
  missing := (missing q).length
  delivered := q.delivered
  duplicates := q.duplicates
  outOfWindow := q.outOfWindow
  gapsOpened := q.gapsOpened
  windowSize := q.windowSize

/-- A number that is not buffered, and not behind all that is. -/
def IsHole (q : Sequencer P) (n : ℤ) : Prop := q.next ≤ n ∧ n ∉ q.buffer ∧ ∃ m ∈ q.buffer, n < m

/-- What `missing` answers. -/
structure Waited (q : Sequencer P) : Prop where
  absent : ∀ n ∈ missing q, q.next ≤ n ∧ n ∉ q.buffer
  ascending : (missing q).Pairwise (· < ·)
  /-- The first number that is not there comes first. -/
  first : ∃ n, (missing q).head? = some n ∧ ∀ m, q.next ≤ m → m < n → m ∈ q.buffer
  /-- The hole, when it is the only one. -/
  hole : ∀ n, IsHole q n → (∀ m, IsHole q m → m = n) → missing q = [n]
  /-- The number after what is buffered, when there is no hole. -/
  noHole : (∀ n, ¬IsHole q n) → missing q = [q.next + q.buffer.keys.length]
  stats : (stats q).missing = (missing q).length

/-- When `n` has gone out, what is buffered goes on with the number after it. -/
def Follows (buffer : Buffer P) (n : ℤ) : Prop := ∀ m ∈ buffer, n < m → n + 1 ∈ buffer

/-- No message that goes out leaves a hole behind it: neither the next one nor, where no `onMessage`
stops the release, those right after it. -/
def NoneLeft (q : Sequencer P) (buffer : Buffer P) : Prop :=
  ∀ n, q.next ≤ n → (q.onMessage = true → n = q.next) → (∀ k, q.next ≤ k → k ≤ n → k ∈ buffer) →
    Follows buffer n

/-- No release stops at a gap. -/
def LeavesNoGap (s : State P) : Event P → Prop
  | .push seq payload => s.sequencer.disposed = false → seq = .finite s.sequencer.next →
    s.sequencer.next ∉ s.sequencer.buffer →
      NoneLeft s.sequencer (s.sequencer.buffer.insert s.sequencer.next payload)
  | .returns => 0 < s.releasing → NoneLeft s.sequencer s.sequencer.buffer
  | .reset | .dispose => True

/-- `onGap` was called for the next number, when messages behind it are buffered. -/
def Asked (s : State P) : Prop :=
  hasGap s.sequencer = true → ∃ gap ∈ s.gaps, s.sequencer.next ∈ gap.2

/-! ## The first number that is not there -/

section
variable {q : Sequencer P} {buffer : Buffer P}

theorem firstAbsent_spec (buffer : Buffer P) (turns : ℕ) (seq : ℤ) :
    seq ≤ firstAbsent buffer turns seq ∧ firstAbsent buffer turns seq ≤ seq + turns ∧
      (∀ m, seq ≤ m → m < firstAbsent buffer turns seq → m ∈ buffer) ∧
      (firstAbsent buffer turns seq ∈ buffer → firstAbsent buffer turns seq = seq + turns) := by
  induction turns generalizing seq with
  | zero =>
    simp only [firstAbsent]
    exact ⟨le_rfl, by simp, fun m hle hlt => absurd hlt (not_lt.mpr hle), fun _ => by simp⟩
  | succ turns ih =>
    rw [firstAbsent]
    by_cases hseq : seq ∈ buffer
    · rw [if_pos hseq]
      obtain ⟨hle, hturns, hbelow, hend⟩ := ih (seq + 1)
      refine ⟨by omega, by push_cast; omega, fun m hm hlt => ?_, fun hmem => ?_⟩
      · by_cases heq : m = seq
        · exact heq ▸ hseq
        · exact hbelow m (by omega) hlt
      · rw [hend hmem]
        push_cast
        ring
    · rw [if_neg hseq]
      exact ⟨le_rfl, by omega, fun m hle hlt => absurd hlt (not_lt.mpr hle), fun hmem => absurd hmem hseq⟩

/-- As many numbers as there are from `a` to `b` are buffered when all of these are. -/
theorem length_of_between {a b : ℤ} (h : ∀ m, a ≤ m → m < b → m ∈ buffer) :
    (b - a).toNat ≤ buffer.keys.length := by
  have hsub : Finset.Ico a b ⊆ buffer.keys.toFinset := by
    intro m hm
    obtain ⟨hle, hlt⟩ := Finset.mem_Ico.mp hm
    exact List.mem_toFinset.mpr (AList.mem_keys.mp (h m hle hlt))
  calc (b - a).toNat = (Finset.Ico a b).card := (Int.card_Ico a b).symm
    _ ≤ buffer.keys.toFinset.card := Finset.card_le_card hsub
    _ ≤ buffer.keys.length := List.toFinset_card_le _

/-- Of one number more than are buffered, one is not. -/
theorem firstAbsent_notMem (buffer : Buffer P) (seq : ℤ) :
    firstAbsent buffer buffer.keys.length seq ∉ buffer := by
  intro hmem
  obtain ⟨-, -, hbelow, hend⟩ := firstAbsent_spec buffer buffer.keys.length seq
  have hlast := hend hmem
  rw [hlast] at hmem hbelow
  have hall : ∀ m, seq ≤ m → m < seq + buffer.keys.length + 1 → m ∈ buffer := by
    intro m hle hlt
    by_cases heq : m = seq + buffer.keys.length
    · exact heq ▸ hmem
    · exact hbelow m hle (by omega)
  have hlength := length_of_between hall
  omega

/-- With no number that is not there before it. -/
theorem firstAbsent_of_notMem {n : ℤ} (h : n ∉ buffer) (turns : ℕ) : firstAbsent buffer turns n = n := by
  cases turns with
  | zero => rfl
  | succ turns => rw [firstAbsent, if_neg h]

theorem waited (hwindow : ∀ n ∈ q.buffer, q.next ≤ n) : Waited q := by
  obtain ⟨hle, -, hbelow, -⟩ := firstAbsent_spec q.buffer q.buffer.keys.length q.next
  have habsent := firstAbsent_notMem q.buffer q.next
  have hmissing : missing q = [firstAbsent q.buffer q.buffer.keys.length q.next] := rfl
  generalize firstAbsent q.buffer q.buffer.keys.length q.next = f at *
  refine ⟨?_, ?_, ⟨f, by rw [hmissing]; rfl, hbelow⟩, ?_, ?_, rfl⟩
  · intro n hn
    rw [hmissing, List.mem_singleton] at hn
    exact hn ▸ ⟨hle, habsent⟩
  · rw [hmissing]
    exact List.pairwise_singleton _ _
  · rintro n ⟨hnext, hn, m, hm, hlt⟩ honly
    have hfn : f ≤ n := not_lt.mp fun hlt' => hn (hbelow n hnext hlt')
    rw [hmissing, honly f ⟨hle, habsent, m, hm, hfn.trans_lt hlt⟩]
  · intro hnone
    have hin : ∀ m ∈ q.buffer, m < f := by
      intro m hm
      by_contra hge
      have hne : f ≠ m := fun heq => habsent (heq ▸ hm)
      exact hnone f ⟨hle, habsent, m, hm, by omega⟩
    have hat_least := length_of_between hbelow
    have hat_most : q.buffer.keys.length ≤ (f - q.next).toNat := by
      have hsub : q.buffer.keys.toFinset ⊆ Finset.Ico q.next f := by
        intro m hm
        have hm' : m ∈ q.buffer := AList.mem_keys.mpr (List.mem_toFinset.mp hm)
        exact Finset.mem_Ico.mpr ⟨hwindow m hm', hin m hm'⟩
      calc q.buffer.keys.length = q.buffer.keys.toFinset.card :=
            (List.toFinset_card_of_nodup q.buffer.keys_nodup).symm
        _ ≤ (Finset.Ico q.next f).card := Finset.card_le_card hsub
        _ = (f - q.next).toNat := Int.card_Ico _ _
    rw [hmissing]
    congr 1
    omega

end

/-- In every run `missing` answers numbers that are waited on, the first of them first: the hole in
what is buffered when there is one, and the number after it when there is none. -/
theorem missing_waited {o : Options} {q : Sequencer P} (hnew : new o = .ok q) (es : List (Event P)) :
    Always step (fun s => Waited s.sequencer) (start q) es :=
  (in_order hnew es).mono fun _ h => waited fun n hn => (h.window n hn).1

theorem missing_waited_fromZero :
    Always step (fun s => Waited s.sequencer) (start fromZero) (swapped ++ [.returns, .returns]) :=
  missing_waited new_fromZero _

/-- Two holes, of which the first is answered; and with nothing buffered, the next number. -/
theorem missing_overlooks :
    let s := run step (start fromZero) [.push (.finite 1) "b", .push (.finite 3) "d"]
    missing s.sequencer = [0] ∧ (stats s.sequencer).missing = 1 ∧ IsHole s.sequencer 2 ∧
      missing fromZero = [0] ∧ ∀ n, ¬IsHole fromZero n := by
  refine ⟨by decide +kernel, by decide +kernel, ⟨by decide +kernel, by decide +kernel, 3, ?_⟩,
    by decide +kernel, ?_⟩
  · exact ⟨by decide +kernel, by decide⟩
  · rintro n ⟨-, -, m, hm, -⟩
    exact AList.notMem_empty _ hm

/-! ## What is asked for -/

section
variable {s : State P} {payload : P}

/-- What only `dispose` changes. -/
structure SameHandlers (s s' : State P) : Prop where
  onGap : s'.sequencer.onGap = s.sequencer.onGap
  disposed : s'.sequencer.disposed = s.sequencer.disposed

theorem SameHandlers.trans {s' s'' : State P} (h : SameHandlers s s') (h' : SameHandlers s' s'') :
    SameHandlers s s'' :=
  ⟨h'.onGap.trans h.onGap, h'.disposed.trans h.disposed⟩

theorem release_handlers (turns : ℕ) (s : State P) : SameHandlers s (release turns s) := by
  induction turns generalizing s with
  | zero => exact ⟨rfl, rfl⟩
  | succ turns ih =>
    rw [release]
    split
    · exact ⟨rfl, rfl⟩
    · dsimp only
      split
      · exact ⟨rfl, rfl⟩
      · next payload _ _ => exact ⟨(ih (takeNext s payload)).onGap, (ih (takeNext s payload)).disposed⟩

theorem pushInteger_handlers (s : State P) (n : ℤ) (payload : P) :
    SameHandlers s (pushInteger s n payload).1 := by
  unfold pushInteger
  dsimp only
  split
  · exact ⟨rfl, rfl⟩
  split
  · exact ⟨rfl, rfl⟩
  split
  · exact ⟨rfl, rfl⟩
  · have hnoted : SameHandlers s (noteGap (accept s n payload) n (hasGap s.sequencer)) := by
      unfold noteGap
      split
      · exact ⟨rfl, rfl⟩
      · exact ⟨rfl, rfl⟩
    split
    · exact hnoted.trans (release_handlers _ _)
    · exact hnoted

theorem push_handlers (s : State P) (seq : Number) (payload : P) : SameHandlers s (push s seq payload).1 := by
  unfold push
  split
  · exact ⟨rfl, rfl⟩
  · split
    · split
      · exact pushInteger_handlers s _ payload
      · exact ⟨rfl, rfl⟩
    · exact ⟨rfl, rfl⟩

/-- A release that leaves no hole behind it leaves no gap that was not asked for. -/
theorem asked_release (hordered : Ordered s) (hnone : NoneLeft s.sequencer s.sequencer.buffer)
    (hasked : s.sequencer.next ∈ s.sequencer.buffer ∨ Asked s) (turns : ℕ)
    (hturns : s.sequencer.buffer.keys.length ≤ turns) : Asked (release turns s) := by
  induction turns generalizing s with
  | zero =>
    intro hgap
    simp only [release, hasGap, Bool.and_eq_true] at hgap
    have hpos := of_decide_eq_true hgap.1
    omega
  | succ turns ih =>
    rw [release]
    cases hnext : s.sequencer.buffer.lookup s.sequencer.next with
    | none => exact hasked.resolve_left (AList.lookup_eq_none.mp hnext)
    | some payload =>
      have hmem : s.sequencer.next ∈ s.sequencer.buffer := AList.lookup_isSome.mp (by rw [hnext]; rfl)
      have htaken := hordered.takeNext hnext
      have hlength := length_takeNext hnext
      have hfollows : Follows s.sequencer.buffer s.sequencer.next :=
        hnone _ le_rfl (fun _ => rfl) fun k hle hle' => le_antisymm hle hle' ▸ hmem
      -- what is left goes on with the number after the one that went out
      have hgone : hasGap (takeNext s payload).sequencer = false := by
        by_contra hgap
        simp only [hasGap, Bool.not_eq_false, Bool.and_eq_true, decide_eq_true_eq] at hgap
        obtain ⟨m, hm⟩ := List.exists_mem_of_length_pos hgap.1
        obtain ⟨hne, hm⟩ := AList.mem_erase.mp (AList.mem_keys.mpr hm)
        have hle := (hordered.window m hm).1
        refine hgap.2 (AList.mem_erase.mpr ⟨?_, hfollows m hm (by omega)⟩)
        exact fun heq => by simp [takeNext] at heq
      have hasked' : Asked (takeNext s payload) := fun hgap => by rw [hgone] at hgap; cases hgap
      dsimp only
      split
      · exact fun hgap => hasked' hgap
      · next hsilent =>
        refine ih htaken ?_ (Or.inr hasked') (by omega)
        intro n hle _ hall m hm hlt
        obtain ⟨-, hm⟩ := AList.mem_erase.mp hm
        have hall' : ∀ k, s.sequencer.next ≤ k → k ≤ n → k ∈ s.sequencer.buffer := by
          intro k hk hk'
          by_cases heq : k = s.sequencer.next
          · exact heq ▸ hmem
          · have hk'' : (takeNext s payload).sequencer.next ≤ k := by
              simp only [takeNext]
              omega
            exact (AList.mem_erase.mp (hall k hk'' hk')).2
        have hle' : s.sequencer.next + 1 ≤ n := hle
        refine AList.mem_erase.mpr ⟨by omega, hnone n (by omega) (fun h => absurd h hsilent) hall' m hm hlt⟩

/-- What holds of a sequencer that has an `onGap`, as long as no release stops at a gap. -/
structure Asks (s : State P) : Prop where
  settled : Settled s
  onGap : s.sequencer.disposed = false → s.sequencer.onGap = true
  asked : Asked s

theorem asked_pushInteger (h : Asks s) (hlive : s.sequencer.disposed = false) (n : ℤ) (payload : P)
    (hnone : n = s.sequencer.next → s.sequencer.next ∉ s.sequencer.buffer →
      NoneLeft s.sequencer (s.sequencer.buffer.insert s.sequencer.next payload)) :
    Asked (pushInteger s n payload).1 := by
  unfold pushInteger
  dsimp only
  split
  · exact h.asked
  split
  · exact h.asked
  split
  · exact h.asked
  · next hle hlt hnew =>
    have haccept := h.settled.1.accept payload hlive (not_lt.mp hle) (not_le.mp hlt) hnew
    dsimp only
    by_cases heq : n = s.sequencer.next
    · rw [if_pos heq]
      have hsame : noteGap (accept s n payload) n (hasGap s.sequencer) = accept s n payload :=
        if_neg fun hgap => hgap.1 heq
      rw [hsame]
      subst heq
      exact asked_release haccept (hnone rfl hnew) (Or.inl ((AList.mem_insert _).mpr (Or.inl rfl))) _ le_rfl
    · rw [if_neg heq]
      unfold noteGap
      split
      · next hopened =>
        intro hgap
        have honGap : (accept s n payload).sequencer.onGap = true := h.onGap hlive
        have hnext : (accept s n payload).sequencer.next ∉ (accept s n payload).sequencer.buffer := by
          have hgap := hopened.2.2
          simp only [hasGap, Bool.and_eq_true, decide_eq_true_eq] at hgap
          exact hgap.2
        refine ⟨(n, missing (accept s n payload).sequencer), ?_, ?_⟩
        · dsimp only
          rw [if_pos honGap]
          exact List.mem_append_right _ (List.mem_singleton.mpr rfl)
        · unfold missing
          rw [firstAbsent_of_notMem hnext]
          exact List.mem_singleton.mpr rfl
      · next hnot =>
        intro hgap
        have hold : hasGap s.sequencer = true := by
          by_contra hold
          exact hnot ⟨heq, by simpa using hold, hgap⟩
        exact h.asked hold

theorem asks_step (h : Asks s) (e : Event P) (hnone : LeavesNoGap s e) : Asks (step s e) := by
  refine ⟨settled_step h.settled e, ?_, ?_⟩
  · intro hlive
    have hsame {s' : State P} (hs : SameHandlers s s') (hlive : s'.sequencer.disposed = false) :
        s'.sequencer.onGap = true := hs.onGap.trans (h.onGap (hs.disposed.symm.trans hlive))
    cases e with
    | push seq payload => exact hsame (push_handlers s seq payload) hlive
    | returns =>
      simp only [step] at hlive ⊢
      split at hlive
      · next hwaits =>
        rw [if_pos hwaits]
        have hreleased := release_handlers s.sequencer.buffer.keys.length { s with releasing := s.releasing - 1 }
        exact hsame ⟨hreleased.onGap, hreleased.disposed⟩ hlive
      · next hwaits =>
        rw [if_neg hwaits]
        exact h.onGap hlive
    | reset => exact h.onGap hlive
    | dispose =>
      simp only [step, dispose] at hlive ⊢
      split at hlive
      · next hdisposed => exact absurd (hlive.symm.trans hdisposed) Bool.false_ne_true
      · cases hlive
  · cases e with
    | push seq payload =>
      simp only [step, push]
      split
      · exact h.asked
      · next hlive =>
        have hlive : s.sequencer.disposed = false := by simpa using hlive
        split
        · next q =>
          split
          · next hden =>
            refine asked_pushInteger h hlive _ payload fun hnum hnew => hnone hlive ?_ hnew
            rw [← hnum, Rat.coe_int_num_of_den_eq_one hden]
          · exact h.asked
        · exact h.asked
    | returns =>
      simp only [step]
      split
      · next hwaits =>
        have hordered := h.settled.1
        exact asked_release (s := { s with releasing := s.releasing - 1 })
          { hordered with } (hnone hwaits) (Or.inr h.asked) _ le_rfl
      · exact h.asked
    | reset => simp [step, reset, Asked, hasGap]
    | dispose =>
      simp only [step, dispose]
      split
      · exact h.asked
      · simp [Asked, hasGap]

end

/-- In every run where no release stops at a gap, `onGap` was called for the next number whenever
messages behind it are buffered. -/
theorem asks_for_next {o : Options} {q : Sequencer P} (hnew : new o = .ok q) (honGap : o.onGap = true)
    (es : List (Event P)) (hnone : Meets step LeavesNoGap (start q) es) :
    Always step Asked (start q) es := by
  have hstart : Asks (start q) := by
    have hsettled := settled_start hnew
    obtain ⟨windowSize, -, hnew⟩ := bind_eq_ok.mp hnew
    obtain ⟨startAt, -, hnew⟩ := bind_eq_ok.mp hnew
    cases hnew
    exact ⟨hsettled, fun _ => honGap, by simp [Asked, start, hasGap]⟩
  have hrun := always_of_meets (P := Asks) (fun _ e h hok => asks_step h e hok) hstart hnone
  exact hrun.mono fun _ h => h.asked

/-- A sequencer from 0 on, with an `onGap` and no `onMessage`. -/
def asking : Sequencer String := { fromZero with onGap := true, onMessage := false }

/-- The gap that the second message leaves is asked for, and filled. -/
theorem asks_for_next_swapped : Always step Asked (start asking) swapped := by
  have hnew : new { onGap := true } = .ok asking := rfl
  let s := step (start asking) (.push (.finite 1) "b")
  have hnext : s.sequencer.next = 0 := by decide +kernel
  have hkeys : s.sequencer.buffer.keys = [1] := by decide +kernel
  have hlater : Number.finite 1 ≠ .finite (start asking).sequencer.next := by decide +kernel
  refine asks_for_next hnew rfl swapped ⟨fun _ hseq => absurd hseq hlater, ?_, trivial⟩
  show s.sequencer.disposed = false → _ → _ → NoneLeft s.sequencer _
  rw [hnext]
  rintro - - - n hle - - m hm hlt
  rw [hnext] at hle
  have hm' : m = 1 := by
    rcases (AList.mem_insert _).mp hm with rfl | hm
    · omega
    · rw [AList.mem_keys, hkeys] at hm
      exact List.mem_singleton.mp hm
  have hn : n + 1 = m := by omega
  exact hn ▸ hm

/-- Two messages wait, each behind a hole of its own. The release that fills the first hole stops at
the second, which nothing was called for. -/
theorem gap_not_asked :
    let s := run step (start asking) [.push (.finite 1) "b", .push (.finite 3) "d", .push (.finite 0) "a"]
    hasGap s.sequencer = true ∧ s.sequencer.next = 2 ∧ s.gaps = [(1, [0])] := by
  decide +kernel

end PerformanceHelpers.Sequencer
