import Mathlib

/- The grammar of JSON documents, over UTF-8 bytes.

   A byte that does not decode may only stand in a string, where it is read as a
   replacement character, so that strings take any byte from 0x20 on but the quote and
   the backslash. A document may stand behind a byte order mark.

   What is proved:
     1. `Document.text` — every byte of a document is whitespace or from 0x20 on.
     2. `Document.ne_nil` — a document has a first byte. -/
namespace PerformanceHelpers.Json

def IsWhitespace (x : UInt8) : Prop := x = 0x20 ∨ x = 0x09 ∨ x = 0x0a ∨ x = 0x0d

def IsDigit (x : UInt8) : Prop := 0x30 ≤ x ∧ x ≤ 0x39

def IsHexDigit (x : UInt8) : Prop :=
  IsDigit x ∨ (0x41 ≤ x ∧ x ≤ 0x46) ∨ (0x61 ≤ x ∧ x ≤ 0x66)

def IsText (x : UInt8) : Prop := IsWhitespace x ∨ 0x20 ≤ x

def Whitespace (b : List UInt8) : Prop := ∀ x ∈ b, IsWhitespace x

def Digits (b : List UInt8) : Prop := b ≠ [] ∧ ∀ x ∈ b, IsDigit x

def Integer (b : List UInt8) : Prop := Digits b ∧ (b.head? = some 0x30 → b = [0x30])

def Fraction (b : List UInt8) : Prop := b = [] ∨ ∃ d, Digits d ∧ b = 0x2e :: d

def Exponent (b : List UInt8) : Prop :=
  b = [] ∨ ∃ e s d, (e = 0x65 ∨ e = 0x45) ∧ (s = [] ∨ s = [0x2b] ∨ s = [0x2d]) ∧ Digits d ∧
    b = e :: (s ++ d)

def Number (b : List UInt8) : Prop :=
  ∃ s i f e, (s = [] ∨ s = [0x2d]) ∧ Integer i ∧ Fraction f ∧ Exponent e ∧ b = s ++ i ++ f ++ e

/-- The characters that stand for themselves or for a control character behind a backslash. -/
def escapes : List UInt8 := [0x22, 0x5c, 0x2f, 0x62, 0x66, 0x6e, 0x72, 0x74]

inductive Characters : List UInt8 → Prop
  | nil : Characters []
  | plain {x : UInt8} {b : List UInt8} (h : 0x20 ≤ x ∧ x ≠ 0x22 ∧ x ≠ 0x5c) :
      Characters b → Characters (x :: b)
  | escape {x : UInt8} {b : List UInt8}
      (h : x ∈ escapes) :
      Characters b → Characters (0x5c :: x :: b)
  | unicode {d b : List UInt8} (h : d.length = 4 ∧ ∀ x ∈ d, IsHexDigit x) :
      Characters b → Characters (0x5c :: 0x75 :: (d ++ b))

def Quoted (b : List UInt8) : Prop := ∃ c, Characters c ∧ b = 0x22 :: (c ++ [0x22])

inductive Nonterminal where
  | value
  | element
  | elements
  | members

inductive Derives : Nonterminal → List UInt8 → Prop
  | null : Derives .value [0x6e, 0x75, 0x6c, 0x6c]
  | true : Derives .value [0x74, 0x72, 0x75, 0x65]
  | false : Derives .value [0x66, 0x61, 0x6c, 0x73, 0x65]
  | number {b : List UInt8} (h : Number b) : Derives .value b
  | string {b : List UInt8} (h : Quoted b) : Derives .value b
  | emptyArray {w : List UInt8} (h : Whitespace w) : Derives .value (0x5b :: (w ++ [0x5d]))
  | array {b : List UInt8} : Derives .elements b → Derives .value (0x5b :: (b ++ [0x5d]))
  | emptyObject {w : List UInt8} (h : Whitespace w) : Derives .value (0x7b :: (w ++ [0x7d]))
  | object {b : List UInt8} : Derives .members b → Derives .value (0x7b :: (b ++ [0x7d]))
  | element {w v w' : List UInt8} (h : Whitespace w) (h' : Whitespace w') :
      Derives .value v → Derives .element (w ++ v ++ w')
  | lastElement {b : List UInt8} : Derives .element b → Derives .elements b
  | nextElement {b c : List UInt8} :
      Derives .element b → Derives .elements c → Derives .elements (b ++ 0x2c :: c)
  | lastMember {w k w' b : List UInt8} (h : Whitespace w) (hk : Quoted k) (h' : Whitespace w') :
      Derives .element b → Derives .members (w ++ k ++ w' ++ 0x3a :: b)
  | nextMember {w k w' b c : List UInt8} (h : Whitespace w) (hk : Quoted k) (h' : Whitespace w') :
      Derives .element b → Derives .members c →
        Derives .members (w ++ k ++ w' ++ 0x3a :: b ++ 0x2c :: c)

/-- The bytes of a JSON document, behind a byte order mark or not. -/
def Document (b : List UInt8) : Prop :=
  ∃ m c, (m = [] ∨ m = [0xef, 0xbb, 0xbf]) ∧ Derives .element c ∧ b = m ++ c

/-- All bytes are whitespace or no control characters. -/
def Text (b : List UInt8) : Prop := ∀ x ∈ b, IsText x

variable {b : List UInt8} {x : UInt8}

@[simp] theorem text_nil : Text [] := by simp [Text]

@[simp] theorem text_cons : Text (x :: b) ↔ IsText x ∧ Text b := by
  simp [Text]

@[simp] theorem text_append {c : List UInt8} : Text (b ++ c) ↔ Text b ∧ Text c := by
  simp [Text, or_imp, forall_and]

theorem isText_of_le (h : 0x20 ≤ x) : IsText x := Or.inr h

theorem Whitespace.text (h : Whitespace b) : Text b := fun x hx =>
  Or.inl (h x hx)

theorem IsDigit.isText (h : IsDigit x) : IsText x := by
  exact isText_of_le (UInt8.le_trans (b := 0x30) (by decide) h.1)

theorem Digits.text (h : Digits b) : Text b := fun x hx => (h.2 x hx).isText

theorem Fraction.text (h : Fraction b) : Text b := by
  obtain rfl | ⟨d, hd, rfl⟩ := h
  · exact text_nil
  · exact text_cons.mpr ⟨isText_of_le (by decide), hd.text⟩

theorem Exponent.text (h : Exponent b) : Text b := by
  obtain rfl | ⟨e, s, d, he, hs, hd, rfl⟩ := h
  · exact text_nil
  · have hsign : Text s := by
      obtain rfl | rfl | rfl := hs <;> simp [isText_of_le]
    have hmark : IsText e := by
      obtain rfl | rfl := he <;> simp [isText_of_le]
    exact text_cons.mpr ⟨hmark, text_append.mpr ⟨hsign, hd.text⟩⟩

theorem Number.text (h : Number b) : Text b := by
  obtain ⟨s, i, f, e, hs, hi, hf, he, rfl⟩ := h
  have hsign : Text s := by
    obtain rfl | rfl := hs <;> simp [isText_of_le]
  simp only [text_append]
  exact ⟨⟨⟨hsign, hi.1.text⟩, hf.text⟩, he.text⟩

theorem IsHexDigit.isText (h : IsHexDigit x) : IsText x := by
  rcases h with h | h | h
  · exact h.isText
  · exact isText_of_le (UInt8.le_trans (b := 0x41) (by decide) h.1)
  · exact isText_of_le (UInt8.le_trans (b := 0x61) (by decide) h.1)

theorem low_escapes : escapes.Forall (0x20 ≤ ·) := by
  simp only [escapes, List.Forall]
  decide

theorem Characters.text (h : Characters b) : Text b := by
  induction h with
  | nil => exact text_nil
  | plain h _ ih => exact text_cons.mpr ⟨isText_of_le h.1, ih⟩
  | escape h _ ih =>
    have hlow : IsText _ := isText_of_le (List.forall_iff_forall_mem.mp low_escapes _ h)
    exact text_cons.mpr ⟨isText_of_le (by decide), text_cons.mpr ⟨hlow, ih⟩⟩
  | unicode h _ ih =>
    simp only [text_cons, text_append]
    exact ⟨isText_of_le (by decide), isText_of_le (by decide), fun x hx => (h.2 x hx).isText, ih⟩

theorem Quoted.text (h : Quoted b) : Text b := by
  obtain ⟨c, hc, rfl⟩ := h
  simp [isText_of_le, hc.text]

theorem Derives.text {n : Nonterminal} (h : Derives n b) : Text b := by
  induction h with
  | null | true | false => simp [isText_of_le]
  | number h | string h => exact h.text
  | emptyArray h => simp [isText_of_le, h.text]
  | array _ ih => simp [isText_of_le, ih]
  | emptyObject h => simp [isText_of_le, h.text]
  | object _ ih => simp [isText_of_le, ih]
  | element h h' _ ih => simp [h.text, h'.text, ih]
  | lastElement _ ih => exact ih
  | nextElement _ _ ih ih' => simp [isText_of_le, ih, ih']
  | lastMember h hk h' _ ih => simp [isText_of_le, h.text, hk.text, h'.text, ih]
  | nextMember h hk h' _ _ ih ih' => simp [isText_of_le, h.text, hk.text, h'.text, ih, ih']

/-- A nonterminal derives no empty list of bytes. -/
theorem Derives.ne_nil {n : Nonterminal} (h : Derives n b) : b ≠ [] := by
  induction h with
  | number h =>
    obtain ⟨s, i, f, e, -, hi, -, -, rfl⟩ := h
    have := hi.1.1
    simp [this]
  | string h =>
    obtain ⟨c, -, rfl⟩ := h
    simp
  | element _ _ _ ih => simp [ih]
  | lastElement _ ih => exact ih
  | _ => simp

/-- Every byte of a document is whitespace or no control character. -/
theorem Document.text (h : Document b) : Text b := by
  obtain ⟨m, c, hm, hc, rfl⟩ := h
  have hmark : Text m := by
    obtain rfl | rfl := hm <;> simp [isText_of_le]
  exact text_append.mpr ⟨hmark, hc.text⟩

theorem Document.ne_nil (h : Document b) : b ≠ [] := by
  obtain ⟨m, c, -, hc, rfl⟩ := h
  simp [hc.ne_nil]

end PerformanceHelpers.Json
