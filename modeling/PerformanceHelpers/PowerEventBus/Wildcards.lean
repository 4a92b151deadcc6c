import Mathlib.Data.List.TakeWhile
import PerformanceHelpers.PowerEventBus

/- The patterns of a `PowerEventBus`: what a compiled pattern matches, and what `emit` and
   `clear` do with it.

   What is proved:
     1. `wildcardRegex_eq` — the source of a pattern is read back unit by unit: the escaped
        set is all the syntax there is, but for `?`.
     2. `test_iff_covers` — without a `?`, the pattern matches what it is to match.
     3. `emit_matches_iff` — the exact patterns for which `emit` does as its listeners are
        promised.
     4. `clear_local_iff` — when `clear` of one event leaves the others alone. -/
namespace PerformanceHelpers.PowerEventBus
open RegExp PowerSubscriberSet

/-- The event is the pattern with each `*` replaced by some string without a `:`. -/
inductive Covers : Text → Text → Prop where
  | nil : Covers [] []
  | star {p e w : Text} (hw : unit ':' ∉ w) (h : Covers p e) : Covers (unit '*' :: p) (w ++ e)
  | unit {c : UInt16} {p e : Text} (hc : c ≠ RegExp.unit '*') (h : Covers p e) : Covers (c :: p) (c :: e)

/-! ## Compiling a pattern -/

def piece (c : UInt16) : Text :=
  if c ∈ escaped then [unit '\\', c] else if c = unit '*' then text "[^:]*" else [c]

/-- What a unit of a pattern is read as. -/
def tokens (c : UInt16) : List Token :=
  if c = unit '*' then [.atom (.noneOf (unit ':')), .star]
  else if c = unit '?' then [.question] else [.atom (.unit c)]

variable {c : UInt16} {p e s : Text} {r : List Term} {t : Term}

theorem map_map {α β γ : Type} (x : Except Failure α) (f : α → β) (g : β → γ) :
    (x.map f).map g = x.map fun a => g (f a) := by
  cases x <;> rfl

theorem replaceStars_escape (p : Text) : replaceStars (escape p) = p.flatMap piece := by
  induction p with
  | nil => rfl
  | cons c p ih =>
    unfold replaceStars escape at ih ⊢
    rw [List.flatMap_cons, List.flatMap_append, ih, List.flatMap_cons]
    congr 1
    unfold piece
    split
    · next hc =>
      have hslash : unit '\\' ≠ unit '*' := by decide
      have hne : c ≠ unit '*' := by
        rintro rfl
        exact absurd hc (by decide)
      simp [hslash, hne]
    · simp

/-- What is neither escaped nor a quantifier has no meaning of its own. -/
theorem mem_syntaxCharacters : c ∈ syntaxCharacters ↔ c ∈ escaped ∨ c = unit '*' ∨ c = unit '?' := by
  unfold syntaxCharacters escaped
  simp only [List.map_cons, List.map_nil, List.mem_cons, List.not_mem_nil, or_false]
  tauto

theorem lex_star (s : Text) :
    lex (text "[^:]*" ++ s) = ((lex s).map (.star :: ·)).map (.atom (.noneOf (unit ':')) :: ·) := by
  have htext : text "[^:]*" = [unit '[', unit '^', unit ':', unit ']', unit '*'] := by decide
  have hclass : unit '^' = unit '^' ∧ unit ':' ≠ unit ']' ∧ unit ':' ≠ unit '\\' ∧ unit ']' = unit ']' := by decide
  rw [htext, List.cons_append, List.cons_append, List.cons_append, List.cons_append, List.cons_append,
    List.nil_append, lex, if_neg (by decide), if_pos rfl]
  dsimp only
  rw [if_pos hclass]
  congr 1
  rw [lex.eq_def]
  dsimp only
  rw [if_neg (by decide), if_neg (by decide), if_neg (by decide), if_neg (by decide), if_pos rfl]

theorem lex_piece (c : UInt16) (s : Text) : lex (piece c ++ s) = (lex s).map (tokens c ++ ·) := by
  unfold piece
  split
  · next hc =>
    have hstar : c ≠ unit '*' := by
      rintro rfl
      exact absurd hc (by decide)
    have hquestion : c ≠ unit '?' := by
      rintro rfl
      exact absurd hc (by decide)
    unfold tokens
    rw [if_neg hstar, if_neg hquestion, List.cons_append, List.cons_append, List.nil_append, lex, if_pos rfl,
      if_pos (mem_syntaxCharacters.mpr (.inl hc))]
    rfl
  · next hc =>
    split
    · next hstar =>
      subst hstar
      rw [lex_star, map_map]
      rfl
    · next hstar =>
      rw [List.singleton_append]
      have hne : ∀ d ∈ escaped, c ≠ d := fun d hd heq => hc (heq ▸ hd)
      rw [lex.eq_def]
      dsimp only
      rw [if_neg (hne _ (by decide)), if_neg (hne _ (by decide)), if_neg (hne _ (by decide)),
        if_neg (hne _ (by decide)), if_neg hstar]
      unfold tokens
      rw [if_neg hstar]
      by_cases hquestion : c = unit '?'
      · rw [if_pos hquestion, if_pos hquestion]
        rfl
      · have hplain : c ∉ syntaxCharacters := by
          rw [mem_syntaxCharacters]
          tauto
        rw [if_neg hquestion, if_neg hquestion, if_neg hplain]
        rfl

theorem lex_pieces (p s : Text) : lex (p.flatMap piece ++ s) = (lex s).map (p.flatMap tokens ++ ·) := by
  induction p with
  | nil =>
    rw [List.flatMap_nil, List.flatMap_nil, List.nil_append]
    cases lex s <;> rfl
  | cons c p ih =>
    rw [List.flatMap_cons, List.append_assoc, lex_piece, ih, map_map, List.flatMap_cons]
    congr 1
    funext ts
    rw [List.append_assoc]

/-- The source of a pattern is read back unit by unit. -/
theorem wildcardRegex_eq (p : Text) : wildcardRegex p = assemble .nothing (p.flatMap tokens ++ [.stop]) := by
  have hlex : lex (unit '^' :: (p.flatMap piece ++ [unit '$'])) = .ok (.start :: (p.flatMap tokens ++ [.stop])) := by
    have hstop : lex [unit '$'] = .ok [.stop] := by decide
    rw [lex.eq_def]
    dsimp only
    rw [if_neg (by decide), if_neg (by decide), if_pos rfl, lex_pieces, hstop]
    rfl
  unfold wildcardRegex compile
  rw [replaceStars_escape, hlex]

theorem assemble_atom (pending : Pending) (a : Atom) (ts : List Token) :
    assemble pending (.atom a :: ts) = (assemble (.atom a) ts).map (pending.terms ++ ·) := by
  cases pending <;> rfl

theorem assemble_star (pending : Pending) (a : Atom) (ts : List Token) :
    assemble pending (.atom a :: .star :: ts) =
      (assemble (.quantified ⟨a, .many⟩) ts).map (pending.terms ++ ·) := by
  rw [assemble_atom]
  rfl

theorem tokens_star : tokens (unit '*') = [.atom (.noneOf (unit ':')), .star] := if_pos rfl

theorem tokens_question : tokens (unit '?') = [.question] := by decide

theorem tokens_unit (hstar : c ≠ unit '*') (hquestion : c ≠ unit '?') : tokens c = [.atom (.unit c)] := by
  unfold tokens
  rw [if_neg hstar, if_neg hquestion]

/-- What a unit of a pattern without a `?` is read as. -/
def termOf (c : UInt16) : Term :=
  if c = unit '*' then ⟨.noneOf (unit ':'), .many⟩ else ⟨.unit c, .once⟩

theorem assemble_plain (hp : unit '?' ∉ p) (pending : Pending) :
    assemble pending (p.flatMap tokens ++ [.stop]) = .ok (pending.terms ++ p.map termOf) := by
  induction p generalizing pending with
  | nil =>
    rw [List.map_nil, List.append_nil]
    cases pending <;> rfl
  | cons c p ih =>
    rw [List.mem_cons, not_or] at hp
    rw [List.flatMap_cons, List.map_cons, termOf]
    split
    · next hstar =>
      rw [hstar, tokens_star]
      change assemble pending (.atom _ :: .star :: (p.flatMap tokens ++ [.stop])) = _
      rw [assemble_star, ih hp.2]
      rfl
    · next hstar =>
      rw [tokens_unit hstar fun heq => hp.1 heq.symm]
      change assemble pending (.atom _ :: (p.flatMap tokens ++ [.stop])) = _
      rw [assemble_atom, ih hp.2]
      rfl

theorem wildcardRegex_plain (hp : unit '?' ∉ p) : wildcardRegex p = .ok (p.map termOf) := by
  rw [wildcardRegex_eq, assemble_plain hp]
  rfl

/-- The terms of a pattern: a unit that is no `?`, or what a `*` stands for. -/
def PatternTerm (t : Term) : Prop :=
  (∃ c, c ≠ unit '?' ∧ t.atom = .unit c) ∨ t = ⟨.noneOf (unit ':'), .many⟩

theorem map_ok {x : Except Failure (List Term)} {f : List Term → List Term} (h : x.map f = .ok r) :
    ∃ r', x = .ok r' ∧ f r' = r := by
  cases x with
  | error e => cases h
  | ok r' =>
    injection h with h
    exact ⟨r', rfl, h⟩

/-- What is pending is one of the terms, unless a quantifier follows it. -/
theorem assemble_pending {ts : List Token} (h : assemble (.quantified t) ts = .ok r) : t ∈ r := by
  cases ts with
  | nil => cases h
  | cons tok ts =>
    cases tok with
    | start => cases h
    | stop =>
      cases ts with
      | nil =>
        injection h with h
        rw [← h]
        exact List.mem_singleton.mpr rfl
      | cons _ _ => cases h
    | atom a =>
      obtain ⟨r', -, rfl⟩ := map_ok h
      exact List.mem_append_left _ (List.mem_singleton.mpr rfl)
    | star => cases h
    | question =>
      obtain ⟨r', -, rfl⟩ := map_ok h
      exact List.mem_cons_self

structure Compiles (p : Text) (pending : Pending) (r : List Term) : Prop where
  terms : (∀ t ∈ pending.terms, PatternTerm t) → ∀ t ∈ r, PatternTerm t
  star : unit '*' ∈ p → (⟨.noneOf (unit ':'), .many⟩ : Term) ∈ r

theorem assemble_compiles {pending : Pending} (h : assemble pending (p.flatMap tokens ++ [.stop]) = .ok r) :
    Compiles p pending r := by
  induction p generalizing pending r with
  | nil =>
    have hr : r = pending.terms := by
      cases pending <;> (injection h with h; exact h.symm)
    exact ⟨fun hp => hr ▸ hp, fun hmem => by cases hmem⟩
  | cons c p ih =>
    rw [List.flatMap_cons] at h
    by_cases hstar : c = unit '*'
    · rw [hstar, tokens_star] at h
      change assemble pending (.atom _ :: .star :: (p.flatMap tokens ++ [.stop])) = _ at h
      rw [assemble_star] at h
      obtain ⟨r', hr', rfl⟩ := map_ok h
      constructor
      · intro hpending t ht
        rcases List.mem_append.mp ht with ht | ht
        · exact hpending t ht
        · refine (ih hr').terms (fun t' ht' => ?_) t ht
          rw [Pending.terms, List.mem_singleton] at ht'
          exact .inr ht'
      · intro _
        exact List.mem_append_right _ (assemble_pending hr')
    · have hmem : unit '*' ∈ c :: p → unit '*' ∈ p := by
        intro hmem
        rcases List.mem_cons.mp hmem with heq | hmem
        · exact absurd heq.symm hstar
        · exact hmem
      by_cases hquestion : c = unit '?'
      · rw [hquestion, tokens_question] at h
        change assemble pending (.question :: (p.flatMap tokens ++ [.stop])) = _ at h
        cases pending with
        | nothing => cases h
        | atom a =>
          change assemble (.quantified ⟨a, .optional⟩) _ = _ at h
          refine ⟨fun hpending => (ih h).terms fun t ht => ?_, fun hp => (ih h).star (hmem hp)⟩
          rw [Pending.terms, List.mem_singleton] at ht
          subst ht
          rcases hpending ⟨a, .once⟩ (List.mem_singleton.mpr rfl) with hunit | heq
          · exact .inl hunit
          · injection heq with _ hquantifier
            cases hquantifier
        | quantified t =>
          obtain ⟨r', hr', rfl⟩ := map_ok h
          refine ⟨fun hpending t' ht' => ?_, fun hp => List.mem_cons_of_mem _ ((ih hr').star (hmem hp))⟩
          rcases List.mem_cons.mp ht' with rfl | ht'
          · exact hpending t' (List.mem_singleton.mpr rfl)
          · exact (ih hr').terms (fun _ hnone => by cases hnone) t' ht'
      · rw [tokens_unit hstar hquestion] at h
        change assemble pending (.atom _ :: (p.flatMap tokens ++ [.stop])) = _ at h
        rw [assemble_atom] at h
        obtain ⟨r', hr', rfl⟩ := map_ok h
        refine ⟨fun hpending t ht => ?_, fun hp => List.mem_append_right _ ((ih hr').star (hmem hp))⟩
        rcases List.mem_append.mp ht with ht | ht
        · exact hpending t ht
        · refine (ih hr').terms (fun t' ht' => ?_) t ht
          rw [Pending.terms, List.mem_singleton] at ht'
          exact .inl ⟨c, hquestion, by rw [ht']⟩

theorem wildcardRegex_compiles (h : wildcardRegex p = .ok r) : Compiles p .nothing r := by
  rw [wildcardRegex_eq] at h
  exact assemble_compiles h

/-! ## What a pattern matches -/

theorem matches_plain : Matches (p.map termOf) e ↔ Covers p e := by
  induction p generalizing e with
  | nil =>
    constructor
    · intro h
      cases h
      exact .nil
    · intro h
      cases h
      exact .nil
  | cons c p ih =>
    rw [List.map_cons]
    unfold termOf
    split
    · next hc =>
      subst hc
      rw [matches_many]
      constructor
      · rintro ⟨w, e', rfl, hw, h⟩
        exact .star (fun hmem => hw _ hmem rfl) (ih.mp h)
      · intro h
        cases h with
        | star hw h => exact ⟨_, _, rfl, fun d hd heq => hw (heq ▸ hd), ih.mpr h⟩
        | unit hc h => exact absurd rfl hc
    · next hc =>
      rw [matches_once]
      constructor
      · rintro ⟨d, e', rfl, rfl, h⟩
        exact .unit hc (ih.mp h)
      · intro h
        cases h with
        | star hw h => exact absurd rfl hc
        | unit hc h => exact ⟨_, _, rfl, rfl, ih.mpr h⟩

/-- Without a `?`, the pattern matches what it is to match. -/
theorem test_iff_covers (hp : unit '?' ∉ p) (h : wildcardRegex p = .ok r) : test r e = true ↔ Covers p e := by
  rw [wildcardRegex_plain hp] at h
  injection h with h
  rw [← h, test_iff, matches_plain]

/-- What is no `*` is in every event that is covered. -/
theorem Covers.mem (h : Covers p e) (hc : c ∈ p) (hstar : c ≠ RegExp.unit '*') : c ∈ e := by
  induction h with
  | nil => exact hc
  | star hw h ih =>
    rcases List.mem_cons.mp hc with heq | hc
    · exact absurd heq hstar
    · exact List.mem_append_right _ (ih hc)
  | unit hd h ih =>
    rcases List.mem_cons.mp hc with heq | hc
    · exact heq ▸ List.mem_cons_self
    · exact List.mem_cons_of_mem _ (ih hc)

/-- A pattern with a `?` matches an event without one, which it does not cover. -/
theorem matches_uncovered (hp : unit '?' ∈ p) (h : wildcardRegex p = .ok r) :
    ∃ e, test r e = true ∧ ¬Covers p e := by
  have hterms := (wildcardRegex_compiles h).terms fun _ hnone => by cases hnone
  refine ⟨shortest r, test_iff.mpr (matches_shortest fun t ht hq => ?_), fun hcovers => ?_⟩
  · rcases hterms t ht with ⟨c, -, hc⟩ | rfl
    · exact ⟨c, hc⟩
    · cases hq
  · have hmem := mem_shortest.mp (hcovers.mem hp (by decide))
    rcases hterms _ hmem with ⟨c, hc, heq⟩ | heq
    · injection heq with heq
      exact hc heq.symm
    · cases heq

/-- A pattern matches no event alone. -/
theorem matches_other (hp : isWildcard p = true) (h : wildcardRegex p = .ok r) (he : test r e = true) :
    ∃ e', e' ≠ e ∧ test r e' = true := by
  have hstar := (wildcardRegex_compiles h).star (of_decide_eq_true hp)
  have haccepts : (Atom.noneOf (unit ':')).Accepts (unit 'a') := by decide
  obtain ⟨e', he', hlen⟩ := (test_iff.mp he).longer hstar haccepts
  refine ⟨e', fun heq => ?_, test_iff.mpr he'⟩
  rw [heq] at hlen
  omega

/-! ## The calls of `emit` -/

/-- A pattern can be compiled. -/
def compiles (pattern : Text) : Bool :=
  match wildcardRegex pattern with
  | .ok _ => true
  | .error _ => false

/-- A pattern that can be compiled matches the event. -/
def tests (pattern event : Text) : Bool :=
  match wildcardRegex pattern with
  | .ok re => test re event
  | .error _ => false

section
variable {F : Type} [DecidableEq F] {m : List (Text × Subscribers F)} {bus : Bus F} {event : Text}

/-- The patterns that a loop over all of them comes to. -/
def reached (m : List (Text × Subscribers F)) : List (Text × Subscribers F) := m.takeWhile fun e => compiles e.1

/-- What a pattern adds to the calls of an `emit`. -/
def adds (event : Text) (e : Text × Subscribers F) : List (Call F) :=
  if tests e.1 event then calls (some e.1) e.2 else []

omit [DecidableEq F] in
theorem size_eq (bucket : Subscribers F) : size bucket = (values bucket).length := by
  unfold values size
  rw [List.length_map]

omit [DecidableEq F] in
theorem calls_nil {pattern : Option Text} {bucket : Subscribers F} (h : values bucket = []) :
    calls pattern bucket = [] := by
  unfold calls
  rw [h, List.map_nil]

theorem emitWildcards_calls (event : Text) (m : List (Text × Subscribers F)) :
    (emitWildcards event m).calls = (reached m).flatMap (adds event) := by
  induction m with
  | nil => rfl
  | cons e m ih =>
    obtain ⟨pattern, bucket⟩ := e
    rw [emitWildcards]
    unfold reached at ih ⊢
    rw [List.takeWhile_cons]
    cases hre : wildcardRegex pattern with
    | error _ =>
      have hno : compiles pattern = false := by rw [compiles, hre]
      dsimp only
      rw [hno]
      rfl
    | ok re =>
      have hyes : compiles pattern = true := by rw [compiles, hre]
      have htests : tests pattern event = test re event := by rw [tests, hre]
      dsimp only
      rw [hyes, if_pos rfl, List.flatMap_cons, adds, ← ih, htests]
      cases htest : test re event with
      | false =>
        rw [if_pos rfl]
        rfl
      | true =>
        rw [if_neg (by decide), if_pos rfl]
        split
        · next hempty =>
          rw [size_eq, List.length_eq_zero_iff] at hempty
          rw [calls_nil hempty]
          rfl
        · rfl

theorem emitWildcards_threw (event : Text) (m : List (Text × Subscribers F)) :
    (emitWildcards event m).threw = false ↔ ∀ e ∈ m, compiles e.1 = true := by
  induction m with
  | nil => simp [emitWildcards]
  | cons e m ih =>
    obtain ⟨pattern, bucket⟩ := e
    rw [emitWildcards, List.forall_mem_cons]
    cases hre : wildcardRegex pattern with
    | error _ =>
      have hno : compiles pattern = false := by rw [compiles, hre]
      simp [hno]
    | ok re =>
      have hyes : compiles pattern = true := by rw [compiles, hre]
      dsimp only
      rw [← ih]
      have hthrew : ∀ x y z : Emitted F, x.threw = z.threw → y.threw = z.threw →
          (((if test re event = false then x else y).threw = false) ↔
            compiles pattern = true ∧ z.threw = false) := by
        intro x y z hx hy
        split
        · rw [hx, hyes, eq_self, true_and]
        · rw [hy, hyes, eq_self, true_and]
      apply hthrew
      · rfl
      · split <;> rfl

def exactCalls (s : Store F false) (event : Text) : List (Call F) :=
  match s.get event with
  | none => []
  | some bucket => calls none bucket

theorem emit_calls (bus : Bus F) (event : Text) :
    (emit bus event).2.1 =
      exactCalls bus.listeners event ++ (reached bus.wildcards.entries).flatMap (adds event) := by
  unfold emit
  dsimp only
  rw [emitWildcards_calls]
  congr 1
  unfold exactCalls
  split
  · unfold emitListeners
    cases bus.listeners.get event with
    | none => rfl
    | some bucket =>
      dsimp only
      split
      · next hempty =>
        rw [size_eq, List.length_eq_zero_iff] at hempty
        exact (calls_nil hempty).symm
      · rfl
  · next hwild =>
    have hnone : bus.listeners.get event = none := by
      by_contra hsome
      have hmem := EntryMap.mem_keys.mpr (Option.isSome_iff_ne_none.mpr hsome)
      exact hwild (bus.listeners.kind event hmem)
    rw [hnone]

/-! ## `emit` and the patterns -/

def callsOf (pattern : Text) (cs : List (Call F)) : List (Call F) :=
  cs.filter fun c => decide (c.pattern = some pattern)

section
omit [DecidableEq F]

theorem callsOf_calls_self (pattern : Text) (bucket : Subscribers F) :
    callsOf pattern (calls (some pattern) bucket) = calls (some pattern) bucket := by
  unfold callsOf calls
  rw [List.filter_eq_self]
  intro c hc
  obtain ⟨l, -, rfl⟩ := List.mem_map.mp hc
  exact decide_eq_true rfl

theorem callsOf_calls_other {pattern : Text} {other : Option Text} (h : other ≠ some pattern)
    (bucket : Subscribers F) : callsOf pattern (calls other bucket) = [] := by
  unfold callsOf calls
  rw [List.filter_eq_nil_iff]
  intro c hc
  obtain ⟨l, -, rfl⟩ := List.mem_map.mp hc
  simpa using h

theorem callsOf_adds {pattern : Text} {e : Text × Subscribers F} (h : e.1 ≠ pattern) :
    callsOf pattern (adds event e) = [] := by
  unfold adds
  split
  · exact callsOf_calls_other (fun heq => h (Option.some.inj heq)) _
  · rfl

theorem callsOf_flatMap {pattern : Text} {bucket : Subscribers F} (hnodup : (m.map Prod.fst).Nodup)
    (hmem : (pattern, bucket) ∈ m) : callsOf pattern (m.flatMap (adds event)) = adds event (pattern, bucket) := by
  have hself : callsOf pattern (adds event (pattern, bucket)) = adds event (pattern, bucket) := by
    unfold adds
    split
    · exact callsOf_calls_self pattern bucket
    · rfl
  have hother : ∀ l : List (Text × Subscribers F), pattern ∉ l.map Prod.fst →
      callsOf pattern (l.flatMap (adds event)) = [] := by
    intro l hl
    unfold callsOf
    rw [List.filter_flatMap, List.flatMap_eq_nil_iff]
    intro e he
    exact callsOf_adds fun heq => hl (heq ▸ List.mem_map_of_mem he)
  have happend : ∀ cs cs' : List (Call F), callsOf pattern (cs ++ cs') = callsOf pattern cs ++ callsOf pattern cs' :=
    fun cs cs' => List.filter_append cs cs'
  induction m with
  | nil => cases hmem
  | cons e m ih =>
    obtain ⟨hnew, hrest⟩ := List.nodup_cons.mp (by simpa using hnodup : (e.1 :: m.map Prod.fst).Nodup)
    rw [List.flatMap_cons, happend]
    rcases List.mem_cons.mp hmem with rfl | hmem
    · rw [hself, hother m hnew, List.append_nil]
    · rw [callsOf_adds fun heq => hnew (heq ▸ List.mem_map_of_mem hmem), List.nil_append, ih hrest hmem]

end

/-- What is promised of the patterns of a bus: no `emit` throws, and it calls the listeners
of a pattern exactly where the event is covered. -/
structure NotifiesCovered (bus : Bus F) : Prop where
  total : ∀ event, (emit bus event).2.2 = false
  exact : ∀ event pattern bucket, (pattern, bucket) ∈ bus.wildcards.entries →
    (Covers pattern event → callsOf pattern (emit bus event).2.1 = calls (some pattern) bucket) ∧
      (¬Covers pattern event → callsOf pattern (emit bus event).2.1 = [])

omit [DecidableEq F] in
theorem reached_eq (h : ∀ e ∈ m, compiles e.1 = true) : reached m = m :=
  List.takeWhile_eq_self_iff.mpr h

theorem callsOf_emit {pattern : Text} {bucket : Subscribers F}
    (hall : ∀ e ∈ bus.wildcards.entries, compiles e.1 = true)
    (hmem : (pattern, bucket) ∈ bus.wildcards.entries) :
    callsOf pattern (emit bus event).2.1 = adds event (pattern, bucket) := by
  have hexact : callsOf pattern (exactCalls bus.listeners event) = [] := by
    unfold exactCalls
    split
    · rfl
    · exact callsOf_calls_other (fun h => by cases h) _
  have hflat : callsOf pattern (bus.wildcards.entries.flatMap (adds event)) = adds event (pattern, bucket) :=
    callsOf_flatMap bus.wildcards.nodup hmem
  unfold callsOf at hexact hflat ⊢
  rw [emit_calls, List.filter_append, hexact, reached_eq hall, hflat]
  rfl

theorem compiles_ok (h : compiles p = true) : ∃ r, wildcardRegex p = .ok r := by
  unfold compiles at h
  split at h
  · next r hr => exact ⟨r, hr⟩
  · cases h

/-- `emit` does what is promised exactly where no registered pattern has a `?`, but for
patterns that can be compiled and have no listeners any more. -/
theorem emit_matches_iff (bus : Bus F) : NotifiesCovered bus ↔
    ∀ pattern bucket, (pattern, bucket) ∈ bus.wildcards.entries →
      unit '?' ∉ pattern ∨ compiles pattern = true ∧ values bucket = [] := by
  constructor
  · intro h pattern bucket hmem
    have hall := (emitWildcards_threw [] bus.wildcards.entries).mp (h.total [])
    by_cases hquestion : unit '?' ∈ pattern
    · right
      refine ⟨hall _ hmem, ?_⟩
      obtain ⟨r, hr⟩ := compiles_ok (hall _ hmem)
      obtain ⟨event, htest, hcovers⟩ := matches_uncovered hquestion hr
      have hnone := (h.exact event pattern bucket hmem).2 hcovers
      have htests : tests pattern event = true := by
        rw [tests, hr]
        exact htest
      rw [callsOf_emit hall hmem, adds, if_pos htests] at hnone
      exact List.map_eq_nil_iff.mp hnone
    · exact .inl hquestion
  · intro h
    have hall : ∀ e ∈ bus.wildcards.entries, compiles e.1 = true := by
      intro e he
      rcases h e.1 e.2 he with hquestion | ⟨hcompiles, -⟩
      · rw [compiles, wildcardRegex_plain hquestion]
      · exact hcompiles
    refine ⟨fun event => (emitWildcards_threw event _).mpr hall, fun event pattern bucket hmem => ?_⟩
    rw [callsOf_emit hall hmem, adds]
    rcases h pattern bucket hmem with hquestion | ⟨-, hvalues⟩
    · obtain ⟨r, hr⟩ := compiles_ok (hall _ hmem)
      have htests : tests pattern event = true ↔ Covers pattern event := by
        rw [tests, hr]
        exact test_iff_covers hquestion hr
      exact ⟨fun hcovers => if_pos (htests.mpr hcovers), fun hcovers => if_neg fun ht => hcovers (htests.mp ht)⟩
    · rw [calls_nil hvalues, ite_self]
      exact ⟨fun _ => rfl, fun _ => rfl⟩

/-- A pattern that begins with `?` makes every `emit` throw; one with a `?` later on
matches an event in which the unit before the `?` is missing. -/
theorem question_pattern_misread :
    ¬NotifiesCovered (on (new 0) (text "?*") 7).1 ∧ ¬NotifiesCovered (on (new 0) (text "q?*") 7).1 := by
  constructor
  · intro h
    exact absurd (h.total (text "user")) (by decide)
  · intro h
    have hcovers : ¬Covers (text "q?*") [] := by
      intro hcovers
      have hmem : unit 'q' ∈ ([] : Text) := hcovers.mem (by decide) (by decide)
      cases hmem
    have hmem : (text "q?*", (PowerSubscriberSet.add (PowerSubscriberSet.new 0) 7).1) ∈
        (on (new 0) (text "q?*") 7).1.wildcards.entries := List.mem_singleton.mpr rfl
    exact absurd ((h.exact [] _ _ hmem).2 hcovers) (by decide)

/-! ## `clear` and the other events -/

omit [DecidableEq F] in
theorem reached_clearWildcards (event : Text) (m : List (Text × Subscribers F)) :
    reached (clearWildcards event m).1 = (reached m).filter fun e => !tests e.1 event := by
  unfold reached
  induction m with
  | nil => rfl
  | cons e m ih =>
    obtain ⟨pattern, bucket⟩ := e
    rw [clearWildcards]
    cases hre : wildcardRegex pattern with
    | error _ =>
      have hno : compiles pattern = false := by rw [compiles, hre]
      dsimp only
      rw [List.takeWhile_cons, hno]
      rfl
    | ok re =>
      have hyes : compiles pattern = true := by rw [compiles, hre]
      have htests : tests pattern event = test re event := by rw [tests, hre]
      dsimp only
      rw [List.takeWhile_cons, hyes, if_pos rfl, List.filter_cons]
      dsimp only
      rw [htests]
      cases test re event with
      | false =>
        rw [if_neg (by decide), List.takeWhile_cons, hyes, if_pos rfl, ih]
        rfl
      | true =>
        rw [if_pos rfl, ih]
        rfl

/-- What is filtered out adds what is missing. -/
theorem length_flatMap_filter {α β : Type} (f : α → List β) (q : α → Bool) (l : List α) :
    ((l.filter fun a => !q a).flatMap f).length + ((l.filter q).flatMap f).length = (l.flatMap f).length := by
  induction l with
  | nil => rfl
  | cons a l ih =>
    rw [List.flatMap_cons, List.length_append, ← ih, List.filter_cons, List.filter_cons]
    cases q a with
    | false =>
      simp only [Bool.not_false, if_pos, Bool.false_eq_true, if_false, List.flatMap_cons, List.length_append]
      omega
    | true =>
      simp only [Bool.not_true, if_pos, Bool.false_eq_true, if_false, List.flatMap_cons, List.length_append]
      omega

theorem flatMap_filter_of {α β : Type} {f : α → List β} {q : α → Bool} {l : List α}
    (h : ∀ a ∈ l, q a = true → f a = []) : (l.filter fun a => !q a).flatMap f = l.flatMap f := by
  induction l with
  | nil => rfl
  | cons a l ih =>
    have hl := ih fun a' ha' => h a' (List.mem_cons_of_mem _ ha')
    rw [List.filter_cons, List.flatMap_cons]
    cases hq : q a with
    | false =>
      rw [Bool.not_false, if_pos rfl, List.flatMap_cons, hl]
    | true =>
      rw [Bool.not_true, if_neg (by decide), hl, h a List.mem_cons_self hq, List.nil_append]

def function : Listener F → F
  | .fn f => f
  | .wrapper _ f => f

/-- The listeners that an `emit` notifies. -/
def notified (bus : Bus F) (event : Text) : List F := (emit bus event).2.1.map fun c => function c.listener

/-- What is promised of `clear` with an event: nobody hears of that event, and every other
event is heard of as before. -/
structure ClearsOnly (bus : Bus F) (event : Text) : Prop where
  silent : notified (clear bus event).1 event = []
  others : ∀ event', event' ≠ event → notified (clear bus event).1 event' = notified bus event'

theorem notified_clear (bus : Bus F) (event event' : Text) : notified (clear bus event).1 event' =
    ((if event' = event then ([] : List (Call F)) else exactCalls bus.listeners event') ++
      ((reached bus.wildcards.entries).filter fun e => !tests e.1 event).flatMap (adds event')).map
      (fun c : Call F => function c.listener) := by
  unfold notified
  rw [emit_calls]
  congr 2
  · unfold clear exactCalls Store.get
    dsimp only
    change (match EntryMap.get event' (EntryMap.delete event bus.listeners.entries) with
      | none => []
      | some bucket => calls none bucket) = _
    rw [EntryMap.get_delete]
    split_ifs <;> rfl
  · have hreached := reached_clearWildcards event bus.wildcards.entries
    exact congrArg (List.flatMap (adds event')) hreached

/-- `clear` leaves the other events alone exactly where it deletes no pattern with
listeners. -/
theorem clear_local_iff (bus : Bus F) (event : Text) : ClearsOnly bus event ↔
    ∀ e ∈ reached bus.wildcards.entries, tests e.1 event = true → values e.2 = [] := by
  constructor
  · intro h e he htests
    have hcompiles := List.mem_takeWhile_imp he
    obtain ⟨r, hr⟩ := compiles_ok hcompiles
    have hwild : isWildcard e.1 = true := by
      apply bus.wildcards.kind
      exact List.mem_map_of_mem (List.takeWhile_prefix _ |>.subset he)
    have htest : test r event = true := by
      rw [tests, hr] at htests
      exact htests
    obtain ⟨event', hne, htest'⟩ := matches_other hwild hr htest
    have htests' : tests e.1 event' = true := by
      rw [tests, hr]
      exact htest'
    -- what `e` adds at the other event is missing after the `clear`
    have hsame := congrArg List.length (h.others event' hne)
    rw [notified_clear, notified, emit_calls, if_neg hne, List.length_map, List.length_map, List.length_append,
      List.length_append] at hsame
    have hlength := length_flatMap_filter (adds event') (fun e => tests e.1 event) (reached bus.wildcards.entries)
    have hgone : ((reached bus.wildcards.entries).filter fun e => tests e.1 event).flatMap (adds event') = [] := by
      apply List.length_eq_zero_iff.mp
      omega
    have hadds := List.flatMap_eq_nil_iff.mp hgone e (List.mem_filter.mpr ⟨he, htests⟩)
    rw [adds, if_pos htests'] at hadds
    exact List.map_eq_nil_iff.mp hadds
  · intro h
    constructor
    · have hsilent : ((reached bus.wildcards.entries).filter fun e => !tests e.1 event).flatMap (adds event) = [] := by
        rw [List.flatMap_eq_nil_iff]
        intro e he
        have hno := (List.mem_filter.mp he).2
        exact if_neg fun htests => by simp [htests] at hno
      rw [notified_clear, if_pos rfl, hsilent]
      rfl
    · intro event' hne
      rw [notified_clear, if_neg hne, notified, emit_calls]
      congr 2
      apply flatMap_filter_of
      intro e he htests
      rw [adds, calls_nil (h e he htests), ite_self]

/-- A listener of `user:*` does not hear of a logout any more. -/
theorem clear_deletes_pattern : ¬ClearsOnly (on (new 0) (text "user:*") 7).1 (text "user:login") := by
  intro h
  exact absurd (h.others (text "user:logout") (by decide)) (by decide +kernel)

end

end PerformanceHelpers.PowerEventBus
