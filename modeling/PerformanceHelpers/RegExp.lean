import Mathlib.Data.List.Basic

/- Regular expressions as JavaScript compiles and tests them, without flags: `^`, a
   sequence of quantified atoms, and `$`.

   An atom is a code unit or a class `[^c]`; a quantifier is `?` or `*`, and may be lazy,
   which makes no difference to a test between anchors. The other constructs are not read
   (`Failure.unsupported`).

   What is proved:
     1. `test_iff` — the test decides the language (`Matches`).
     2. `matches_many` — what a repeated atom takes.
     3. `Matches.longer` — an expression with a repeated atom that takes anything has no
        longest word. -/
namespace PerformanceHelpers.RegExp

/-- A string of JavaScript: its code units. -/
abbrev Text := List UInt16

/-- The code unit of a character that has one. -/
def unit (c : Char) : UInt16 := UInt16.ofNat c.toNat

def text (s : String) : Text := s.toList.map unit

/-- `SyntaxCharacter` of the grammar. -/
def syntaxCharacters : Text :=
  ['^', '$', '\\', '.', '*', '+', '?', '(', ')', '[', ']', '\x7b', '\x7d', '|'].map unit

inductive Atom where
  | unit (c : UInt16)
  | noneOf (c : UInt16)
  deriving DecidableEq

def Atom.Accepts : Atom → UInt16 → Prop
  | .unit c, d => d = c
  | .noneOf c, d => d ≠ c

instance : ∀ (a : Atom) (d : UInt16), Decidable (a.Accepts d)
  | .unit c, d => inferInstanceAs (Decidable (d = c))
  | .noneOf c, d => inferInstanceAs (Decidable (d ≠ c))

inductive Quantifier where
  | once
  | optional
  | many
  deriving DecidableEq

structure Term where
  atom : Atom
  quantifier : Quantifier
  deriving DecidableEq

/-! ## Reading a source -/

/-- A `SyntaxError` of the quantifiers, or a construct that is not read here. -/
inductive Failure where
  | nothingToRepeat
  | unsupported
  deriving DecidableEq

inductive Token where
  | start
  | stop
  | atom (a : Atom)
  | star
  | question
  deriving DecidableEq

def lex : Text → Except Failure (List Token)
  | [] => .ok []
  | c :: s =>
    if c = unit '\\' then
      match s with
      | [] => .error .unsupported
      | d :: s =>
        if d ∈ syntaxCharacters then (lex s).map (.atom (.unit d) :: ·) else .error .unsupported
    else if c = unit '[' then
      match s with
      | hat :: d :: closing :: s =>
        if hat = unit '^' ∧ d ≠ unit ']' ∧ d ≠ unit '\\' ∧ closing = unit ']' then
          (lex s).map (.atom (.noneOf d) :: ·)
        else .error .unsupported
      | _ => .error .unsupported
    else if c = unit '^' then (lex s).map (.start :: ·)
    else if c = unit '$' then (lex s).map (.stop :: ·)
    else if c = unit '*' then (lex s).map (.star :: ·)
    else if c = unit '?' then (lex s).map (.question :: ·)
    else if c ∈ syntaxCharacters then .error .unsupported
    else (lex s).map (.atom (.unit c) :: ·)

/-- What stands before a token: nothing that a quantifier may follow, an atom without one,
or an atom whose quantifier may still be made lazy. -/
inductive Pending where
  | nothing
  | atom (a : Atom)
  | quantified (t : Term)
  deriving DecidableEq

def Pending.terms : Pending → List Term
  | .nothing => []
  | .atom a => [⟨a, .once⟩]
  | .quantified t => [t]

def assemble : Pending → List Token → Except Failure (List Term)
  | p, [.stop] => .ok p.terms
  | p, .atom a :: ts => (assemble (.atom a) ts).map (p.terms ++ ·)
  | .atom a, .star :: ts => assemble (.quantified ⟨a, .many⟩) ts
  | .atom a, .question :: ts => assemble (.quantified ⟨a, .optional⟩) ts
  | .quantified t, .question :: ts => (assemble .nothing ts).map (t :: ·)
  | _, .star :: _ => .error .nothingToRepeat
  | _, .question :: _ => .error .nothingToRepeat
  | _, _ => .error .unsupported

/-- `new RegExp(source)`. -/
def compile (source : Text) : Except Failure (List Term) :=
  match lex source with
  | .error e => .error e
  | .ok (.start :: ts) => assemble .nothing ts
  | .ok _ => .error .unsupported

/-! ## Testing a string -/

inductive Matches : List Term → Text → Prop where
  | nil : Matches [] []
  | once {a c r s} (ha : a.Accepts c) (h : Matches r s) : Matches (⟨a, .once⟩ :: r) (c :: s)
  | absent {a r s} (h : Matches r s) : Matches (⟨a, .optional⟩ :: r) s
  | present {a c r s} (ha : a.Accepts c) (h : Matches r s) : Matches (⟨a, .optional⟩ :: r) (c :: s)
  | done {a r s} (h : Matches r s) : Matches (⟨a, .many⟩ :: r) s
  | more {a c r s} (ha : a.Accepts c) (h : Matches (⟨a, .many⟩ :: r) s) :
      Matches (⟨a, .many⟩ :: r) (c :: s)

/-- A unit that the atom accepts, and then what `rest` tests. -/
def testOne (a : Atom) (rest : Text → Bool) : Text → Bool
  | [] => false
  | c :: s => decide (a.Accepts c) && rest s

/-- Units that the atom accepts, and then what `rest` tests. -/
def testMany (a : Atom) (rest : Text → Bool) : Text → Bool
  | [] => rest []
  | c :: s => rest (c :: s) || (decide (a.Accepts c) && testMany a rest s)

def test : List Term → Text → Bool
  | [], s => s.isEmpty
  | ⟨a, .once⟩ :: r, s => testOne a (test r) s
  | ⟨a, .optional⟩ :: r, s => test r s || testOne a (test r) s
  | ⟨a, .many⟩ :: r, s => testMany a (test r) s

variable {a : Atom} {r : List Term} {s : Text}

theorem matches_once : Matches (⟨a, .once⟩ :: r) s ↔ ∃ c s', s = c :: s' ∧ a.Accepts c ∧ Matches r s' := by
  constructor
  · intro h
    cases h with
    | once ha h => exact ⟨_, _, rfl, ha, h⟩
  · rintro ⟨c, s', rfl, ha, h⟩
    exact .once ha h

theorem matches_optional : Matches (⟨a, .optional⟩ :: r) s ↔
    Matches r s ∨ ∃ c s', s = c :: s' ∧ a.Accepts c ∧ Matches r s' := by
  constructor
  · intro h
    cases h with
    | absent h => exact .inl h
    | present ha h => exact .inr ⟨_, _, rfl, ha, h⟩
  · rintro (h | ⟨c, s', rfl, ha, h⟩)
    · exact .absent h
    · exact .present ha h

/-- A repeated atom takes any word of units that it accepts. -/
theorem matches_many : Matches (⟨a, .many⟩ :: r) s ↔
    ∃ w s', s = w ++ s' ∧ (∀ c ∈ w, a.Accepts c) ∧ Matches r s' := by
  constructor
  · intro h
    induction s with
    | nil =>
      cases h with
      | done h => exact ⟨[], [], rfl, by simp, h⟩
    | cons d s ih =>
      cases h with
      | done h => exact ⟨[], d :: s, rfl, by simp, h⟩
      | more ha h =>
        obtain ⟨w, s', rfl, hw, h'⟩ := ih h
        refine ⟨d :: w, s', rfl, ?_, h'⟩
        intro c hc
        rcases List.mem_cons.mp hc with rfl | hc
        · exact ha
        · exact hw c hc
  · rintro ⟨w, s', rfl, hw, h⟩
    induction w with
    | nil => exact .done h
    | cons c w ih =>
      apply Matches.more (hw c List.mem_cons_self)
      exact ih fun d hd => hw d (List.mem_cons_of_mem _ hd)

theorem testOne_iff {rest : Text → Bool} :
    testOne a rest s = true ↔ ∃ c s', s = c :: s' ∧ a.Accepts c ∧ rest s' = true := by
  cases s with
  | nil | cons c s => simp [testOne]

theorem testMany_iff {rest : Text → Bool} :
    testMany a rest s = true ↔ ∃ w s', s = w ++ s' ∧ (∀ c ∈ w, a.Accepts c) ∧ rest s' = true := by
  induction s with
  | nil => simp [testMany]
  | cons d s ih =>
    rw [testMany, Bool.or_eq_true, Bool.and_eq_true, decide_eq_true_iff, ih]
    constructor
    · rintro (h | ⟨ha, w, s', rfl, hw, h⟩)
      · exact ⟨[], d :: s, rfl, by simp, h⟩
      · exact ⟨d :: w, s', rfl, List.forall_mem_cons.mpr ⟨ha, hw⟩, h⟩
    · rintro ⟨w, s', hs, hw, h⟩
      cases w with
      | nil =>
        left
        rw [List.nil_append] at hs
        rw [hs]
        exact h
      | cons c w =>
        right
        rw [List.cons_append, List.cons.injEq] at hs
        obtain ⟨ha, hw⟩ := List.forall_mem_cons.mp hw
        exact ⟨hs.1 ▸ ha, w, s', hs.2, hw, h⟩

/-- The test decides the language. -/
theorem test_iff : test r s = true ↔ Matches r s := by
  induction r generalizing s with
  | nil =>
    rw [test, List.isEmpty_iff]
    constructor
    · rintro rfl
      exact .nil
    · intro h
      cases h
      rfl
  | cons t r ih =>
    obtain ⟨a, q⟩ := t
    cases q with
    | once =>
      rw [test, testOne_iff, matches_once]
      simp only [ih]
    | optional =>
      rw [test, Bool.or_eq_true, testOne_iff, matches_optional]
      simp only [ih]
    | many =>
      rw [test, testMany_iff, matches_many]
      simp only [ih]

/-- The word in which every atom is taken as rarely as it may be. -/
def shortest (r : List Term) : Text :=
  r.filterMap fun t =>
    match t with
    | ⟨.unit c, .once⟩ => some c
    | _ => none

theorem matches_shortest (h : ∀ t ∈ r, t.quantifier = .once → ∃ c, t.atom = .unit c) :
    Matches r (shortest r) := by
  induction r with
  | nil => exact .nil
  | cons t r ih =>
    have hr := ih fun t' ht' => h t' (List.mem_cons_of_mem _ ht')
    obtain ⟨a, q⟩ := t
    cases q with
    | once =>
      obtain ⟨c, hc⟩ := h _ List.mem_cons_self rfl
      dsimp only at hc
      subst hc
      exact .once rfl hr
    | optional =>
      cases a with
      | unit c | noneOf c => exact .absent hr
    | many =>
      cases a with
      | unit c | noneOf c => exact .done hr

theorem mem_shortest {c : UInt16} : c ∈ shortest r ↔ (⟨.unit c, .once⟩ : Term) ∈ r := by
  unfold shortest
  rw [List.mem_filterMap]
  constructor
  · rintro ⟨t, ht, htc⟩
    obtain ⟨a, q⟩ := t
    cases a <;> cases q <;> simp_all
  · intro h
    exact ⟨_, h, rfl⟩

/-- Where an atom that accepts a unit is repeated, every word is shorter than another. -/
theorem Matches.longer {c : UInt16} (hmany : (⟨a, .many⟩ : Term) ∈ r) (hc : a.Accepts c) (h : Matches r s) :
    ∃ s', Matches r s' ∧ s'.length = s.length + 1 := by
  induction h with
  | nil => cases hmany
  | once ha h ih =>
    rcases List.mem_cons.mp hmany with heq | hmany
    · cases heq
    · obtain ⟨s', h', hlen⟩ := ih hmany
      refine ⟨_ :: s', .once ha h', ?_⟩
      rw [List.length_cons, List.length_cons, hlen]
  | absent h ih =>
    rcases List.mem_cons.mp hmany with heq | hmany
    · cases heq
    · obtain ⟨s', h', hlen⟩ := ih hmany
      exact ⟨s', .absent h', hlen⟩
  | present ha h ih =>
    rcases List.mem_cons.mp hmany with heq | hmany
    · cases heq
    · obtain ⟨s', h', hlen⟩ := ih hmany
      refine ⟨_ :: s', .present ha h', ?_⟩
      rw [List.length_cons, List.length_cons, hlen]
  | done h ih =>
    rcases List.mem_cons.mp hmany with heq | hmany
    · cases heq
      exact ⟨c :: _, .more hc (.done h), rfl⟩
    · obtain ⟨s', h', hlen⟩ := ih hmany
      exact ⟨s', .done h', hlen⟩
  | more ha h ih =>
    obtain ⟨s', h', hlen⟩ := ih hmany
    refine ⟨_ :: s', .more ha h', ?_⟩
    rw [List.length_cons, List.length_cons, hlen]

end PerformanceHelpers.RegExp
