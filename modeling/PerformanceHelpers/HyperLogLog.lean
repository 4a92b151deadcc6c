import Mathlib.Data.Finset.Card
import Mathlib.Data.Nat.Size
import Mathlib.Data.Rat.Floor
import PerformanceHelpers.Number
import PerformanceHelpers.Run

/- `HyperLogLog` (`src/utils/hyperLogLog.js`).

   A hash is a number that `| 0` makes 32 bits of. `Math.log2` of the number of registers
   and `Math.log`, which only the dense estimate takes, are left open. A register is a byte,
   and an index below 0, which more than 2^31 registers give, is none.

   A register ends as the largest rank it was given, so that neither the order of the hashes
   nor how often each comes matters (`foldl_absorbs`): the sparse set, which keeps each hash
   once, gives what the whole sequence gives. The finaliser takes every 32-bit word to
   another (`finalise_bijective`), so that the set is as large as the inputs are distinct. -/
namespace PerformanceHelpers.HyperLogLog

/-- `hash | 0`. -/
def toInt32 : Number → BitVec 32
  | .finite q => BitVec.ofInt 32 (if 0 ≤ q then ⌊q⌋ else ⌈q⌉)
  | .infinity | .negInfinity | .nan => 0

def finalise (h : BitVec 32) : BitVec 32 :=
  let h := h + 0x9e3779b1
  let h := (h ^^^ (h >>> 16)) * 0x45d9f3b
  let h := (h ^^^ (h >>> 16)) * 0x45d9f3b
  h ^^^ (h >>> 16)

def alphaFor (m : ℕ) : ℚ :=
  if m = 16 then 673 / 1000
  else if m = 32 then 697 / 1000
  else if m = 64 then 709 / 1000
  else (7213 / 10000) / (1 + (1079 / 1000) / m)

def clz32 (x : BitVec 32) : ℕ := 32 - x.toNat.size

structure Options where
  sparse : Bool := true
  /-- Not finite when it is left out. -/
  sparseThreshold : Number := .nan

end PerformanceHelpers.HyperLogLog

namespace PerformanceHelpers

structure HyperLogLog where
  registerCount : ℕ
  shift : ℚ≥0
  registers : List ℕ
  sparseEnabled : Bool
  sparseThreshold : ℕ
  /-- The distinct finalised hashes of the sparse phase, in the order they came. -/
  sparseSet : Option (List (BitVec 32))
  dense : Bool

end PerformanceHelpers

namespace PerformanceHelpers.HyperLogLog

/-- The constructor, past its check. -/
def initial (log2 : ℕ → ℚ≥0) (m : ℕ) (o : Options) : HyperLogLog where
  registerCount := m
  shift := log2 m
  registers := List.replicate m 0
  sparseEnabled := o.sparse
  sparseThreshold := match o.sparseThreshold with
    | .finite q => if 0 < q then ⌊q⌋₊ else m * 4
    | .infinity | .negInfinity | .nan => m * 4
  sparseSet := if o.sparse then some [] else none
  dense := !o.sparse

/-- The constructor. -/
def new (log2 : ℕ → ℚ≥0) (registerCount : Number) (o : Options) : Except String HyperLogLog :=
  let error := .error s!"HyperLogLog: registerCount must be a power of two, received {registerCount}"
  match registerCount with
  | .finite q =>
    if q.den = 1 ∧ 1 ≤ q ∧ BitVec.ofInt 32 q.num &&& BitVec.ofInt 32 (q.num - 1) = 0 then
      .ok (initial log2 q.num.toNat o)
    else error
  | .infinity | .negInfinity | .nan => error

def bucketOf (s : HyperLogLog) (h : BitVec 32) : ℤ :=
  (h &&& BitVec.ofInt 32 ((s.registerCount : ℤ) - 1)).toInt

def maxRank (s : HyperLogLog) : ℚ := 32 - s.shift + 1

def rankOf (s : HyperLogLog) (h : BitVec 32) : ℚ :=
  let bits := h >>> (⌊(s.shift : ℚ)⌋₊ % 32)
  if bits = 0 then maxRank s else min (maxRank s - 1) (clz32 bits - s.shift + 1)

def raise (rank : ℚ) (current : ℕ) : ℕ := if (current : ℚ) < rank then ⌊rank⌋₊ % 256 else current

def record (s : HyperLogLog) (h : BitVec 32) : HyperLogLog :=
  if 0 ≤ bucketOf s h then
    { s with registers := s.registers.modify (bucketOf s h).toNat (raise (rankOf s h)) }
  else s

def convertToDense (s : HyperLogLog) : HyperLogLog :=
  if s.dense then s
  else match s.sparseSet with
    | none => { s with dense := true }
    | some set => { set.foldl record { s with dense := true } with sparseSet := none }

/-- `Set.add`. -/
def insert (set : List (BitVec 32)) (h : BitVec 32) : List (BitVec 32) :=
  if h ∈ set then set else set ++ [h]

def addHash (s : HyperLogLog) (hash : Number) : HyperLogLog :=
  let h := finalise (toInt32 hash)
  match s.dense, s.sparseSet with
  | false, some set =>
    let s := { s with sparseSet := some (insert set h) }
    if s.sparseThreshold < (insert set h).length then convertToDense s else s
  | _, _ => record s h

def round (x : ℚ) : ℤ := ⌊x + 1 / 2⌋

def cardinality (ln : ℚ → ℚ) (s : HyperLogLog) : ℤ :=
  match s.dense, s.sparseSet with
  | false, some set => set.length
  | _, _ =>
    let m := s.registerCount
    let sum := (s.registers.map fun r => (1 / 2 : ℚ) ^ r).sum
    let zeros := s.registers.count 0
    let raw := alphaFor m * m * m / sum
    if zeros = m then 0
    else if 0 < zeros then
      if raw ≤ m * (5 / 2) then max 1 (round (m * ln (m / zeros))) else round raw
    else round raw

def reset (s : HyperLogLog) : HyperLogLog :=
  let s := { s with registers := s.registers.map fun _ => 0 }
  if s.sparseEnabled then { s with sparseSet := some [], dense := false } else s

/-! ## Runs -/

inductive Event where
  | addHash (hash : Number)
  | reset

def step (s : HyperLogLog) : Event → HyperLogLog
  | .addHash hash => addHash s hash
  | .reset => reset s

def inputs : List Event → List (BitVec 32) :=
  List.foldl (fun seen e => match e with
    | .addHash hash => seen ++ [toInt32 hash]
    | .reset => []) []

/-! ## The finaliser -/

/-- A word that is xored with its upper half gives itself back the second time. -/
theorem xorshift_involutive : Function.Involutive fun x : BitVec 32 => x ^^^ (x >>> 16) := by
  intro x
  have hgone : x >>> 16 >>> 16 = 0#32 := by
    rw [← BitVec.shiftRight_add]
    exact BitVec.ushiftRight_eq_zero (by decide)
  show (x ^^^ x >>> 16) ^^^ ((x ^^^ x >>> 16) >>> 16) = x
  rw [BitVec.ushiftRight_xor_distrib, hgone, BitVec.xor_zero, BitVec.xor_assoc, BitVec.xor_self,
    BitVec.xor_zero]

/-- The multiplier is odd, and has an inverse. -/
theorem multiply_bijective : Function.Bijective fun x : BitVec 32 => x * 0x45d9f3b#32 := by
  have hinverse : 0x45d9f3b#32 * 0x119de1f3#32 = 1#32 := by decide
  apply Function.bijective_iff_has_inverse.mpr
  refine ⟨fun x => x * 0x119de1f3#32, fun x => ?_, fun x => ?_⟩
  · show x * 0x45d9f3b#32 * 0x119de1f3#32 = x
    rw [BitVec.mul_assoc, hinverse, BitVec.mul_one]
  · show x * 0x119de1f3#32 * 0x45d9f3b#32 = x
    rw [BitVec.mul_assoc, BitVec.mul_comm 0x119de1f3#32, hinverse, BitVec.mul_one]

theorem finalise_bijective : Function.Bijective finalise := by
  have hadd : Function.Bijective fun x : BitVec 32 => x + 0x9e3779b1#32 := by
    apply Function.bijective_iff_has_inverse.mpr
    exact ⟨fun x => x - 0x9e3779b1#32, fun x => BitVec.add_sub_cancel _ _, fun x => BitVec.sub_add_cancel _ _⟩
  have hxor := xorshift_involutive.bijective
  exact hxor.comp (multiply_bijective.comp (hxor.comp (multiply_bijective.comp (hxor.comp hadd))))

/-! ## Folds that take a hash once or many times -/

section
variable {α β : Type*} {f : β → α → β}

/-- A step that was taken makes no difference when it is taken again. -/
theorem foldl_absorbs (hcomm : ∀ b x y, f (f b x) y = f (f b y) x) (hidem : ∀ b x, f (f b x) x = f b x)
    {xs : List α} {x : α} (hx : x ∈ xs) (b : β) : f (xs.foldl f b) x = xs.foldl f b := by
  have hlast : ∀ (ys : List α) b, f (ys.foldl f b) x = ys.foldl f (f b x) := by
    intro ys
    induction ys with
    | nil => exact fun _ => rfl
    | cons y ys ih =>
      intro b
      rw [List.foldl_cons, List.foldl_cons, ih, hcomm]
  induction xs generalizing b with
  | nil => cases hx
  | cons y xs ih =>
    rw [List.foldl_cons]
    rcases List.mem_cons.mp hx with rfl | hx
    · rw [hlast, hidem]
    · exact ih hx _

end

def setOf (hashes : List (BitVec 32)) : List (BitVec 32) := hashes.foldl insert []

theorem setOf_concat (hashes : List (BitVec 32)) (h : BitVec 32) :
    setOf (hashes ++ [h]) = insert (setOf hashes) h := by
  rw [setOf, List.foldl_append]
  rfl

theorem mem_setOf {hashes : List (BitVec 32)} {h : BitVec 32} : h ∈ setOf hashes ↔ h ∈ hashes := by
  induction hashes using List.reverseRecOn with
  | nil => exact Iff.rfl
  | append_singleton hashes h' ih =>
    rw [setOf_concat, insert, List.mem_append, List.mem_singleton, ← ih]
    split
    · next hin =>
      refine ⟨Or.inl, ?_⟩
      rintro (hold | rfl)
      · exact hold
      · exact hin
    · rw [List.mem_append, List.mem_singleton]

theorem nodup_setOf (hashes : List (BitVec 32)) : (setOf hashes).Nodup := by
  induction hashes using List.reverseRecOn with
  | nil => exact List.nodup_nil
  | append_singleton hashes h ih =>
    rw [setOf_concat, insert]
    split
    · exact ih
    · next hnew =>
      rw [← List.concat_eq_append]
      exact ih.concat hnew

/-- What a fold takes of a sequence is what it takes of its set. -/
theorem foldl_setOf {β : Type*} {f : β → BitVec 32 → β} (hcomm : ∀ b x y, f (f b x) y = f (f b y) x)
    (hidem : ∀ b x, f (f b x) x = f b x) (hashes : List (BitVec 32)) (b : β) :
    (setOf hashes).foldl f b = hashes.foldl f b := by
  induction hashes using List.reverseRecOn with
  | nil => rfl
  | append_singleton hashes h ih =>
    rw [setOf_concat, List.foldl_append, ← ih, insert]
    split
    · next hin => exact (foldl_absorbs hcomm hidem hin b).symm
    · rw [List.foldl_append]

/-- The set is as large as the inputs are distinct. -/
theorem length_setOf (words : List (BitVec 32)) :
    (setOf (words.map finalise)).length = words.toFinset.card := by
  have hset : (setOf (words.map finalise)).toFinset = words.toFinset.image finalise := by
    ext h
    simp [mem_setOf]
  rw [← List.toFinset_card_of_nodup (nodup_setOf _), hset,
    Finset.card_image_of_injective _ finalise_bijective.injective]

/-! ## Registers -/

/-- A rank that a byte holds raises a register to it. -/
theorem raise_eq_max {rank : ℚ} (h : rank < 256) (current : ℕ) : raise rank current = max current ⌊rank⌋₊ := by
  unfold raise
  split
  · next hlt =>
    have hle : current ≤ ⌊rank⌋₊ := Nat.le_floor hlt.le
    have hbyte : ⌊rank⌋₊ < 256 := (Nat.floor_lt' (by norm_num)).mpr h
    rw [Nat.mod_eq_of_lt hbyte, max_eq_right hle]
  · next hge =>
    have hle : ⌊rank⌋₊ ≤ current := Nat.floor_le_of_le (not_lt.mp hge)
    rw [max_eq_left hle]

theorem rankOf_lt (s : HyperLogLog) (h : BitVec 32) : rankOf s h < 256 := by
  have hshift : (0 : ℚ) ≤ s.shift := s.shift.2
  have hmax : maxRank s ≤ 33 := by
    unfold maxRank
    linarith
  unfold rankOf
  simp only []
  split
  · linarith
  · have hmin := min_le_left (maxRank s - 1) ((clz32 (h >>> (⌊(s.shift : ℚ)⌋₊ % 32)) : ℚ) - s.shift + 1)
    linarith

def raiseAt (registers : List ℕ) (b : ℤ) (r : ℕ) : List ℕ :=
  if 0 ≤ b then registers.modify b.toNat (max · r) else registers

theorem raiseAt_comm (registers : List ℕ) (b b' : ℤ) (r r' : ℕ) :
    raiseAt (raiseAt registers b r) b' r' = raiseAt (raiseAt registers b' r') b r := by
  unfold raiseAt
  by_cases hb : 0 ≤ b
  · by_cases hb' : 0 ≤ b'
    · simp only [if_pos hb, if_pos hb']
      apply List.ext_getElem?
      intro i
      simp only [List.getElem?_modify]
      cases registers[i]? with
      | none => rfl
      | some c =>
        simp only [Option.map_eq_map, Option.map_some]
        split <;> split <;> simp [max_right_comm]
    · simp only [if_pos hb, if_neg hb']
  · simp only [if_neg hb]

theorem raiseAt_idem (registers : List ℕ) (b : ℤ) (r : ℕ) :
    raiseAt (raiseAt registers b r) b r = raiseAt registers b r := by
  unfold raiseAt
  by_cases hb : 0 ≤ b
  · simp only [if_pos hb]
    apply List.ext_getElem?
    intro i
    simp only [List.getElem?_modify]
    cases registers[i]? with
    | none => rfl
    | some c =>
      simp only [Option.map_eq_map, Option.map_some]
      split <;> simp
  · simp only [if_neg hb]

def recorded (s : HyperLogLog) (registers : List ℕ) (h : BitVec 32) : List ℕ :=
  raiseAt registers (bucketOf s h) ⌊rankOf s h⌋₊

theorem record_eq (s : HyperLogLog) (h : BitVec 32) :
    record s h = { s with registers := recorded s s.registers h } := by
  have hraise : raise (rankOf s h) = (max · ⌊rankOf s h⌋₊) := funext fun c => raise_eq_max (rankOf_lt s h) c
  unfold record recorded raiseAt
  rw [hraise]
  split <;> rfl

/-- What decides where a hash goes. -/
theorem recorded_congr {s s' : HyperLogLog} (hcount : s'.registerCount = s.registerCount)
    (hshift : s'.shift = s.shift) : recorded s' = recorded s := by
  have hbucket : bucketOf s' = bucketOf s := by
    funext h
    unfold bucketOf
    rw [hcount]
  have hrank : rankOf s' = rankOf s := by
    funext h
    unfold rankOf maxRank
    rw [hshift]
  unfold recorded
  rw [hbucket, hrank]

theorem foldl_record (hashes : List (BitVec 32)) (s : HyperLogLog) :
    hashes.foldl record s = { s with registers := hashes.foldl (recorded s) s.registers } := by
  induction hashes generalizing s with
  | nil => rfl
  | cons h hashes ih =>
    rw [List.foldl_cons, List.foldl_cons, record_eq, ih]
    have hsame : recorded { s with registers := recorded s s.registers h } = recorded s :=
      recorded_congr rfl rfl
    rw [hsame]

theorem setOf_recorded (s : HyperLogLog) (hashes : List (BitVec 32)) (registers : List ℕ) :
    (setOf hashes).foldl (recorded s) registers = hashes.foldl (recorded s) registers :=
  foldl_setOf (fun _ _ _ => raiseAt_comm _ _ _ _ _) (fun _ _ => raiseAt_idem _ _ _) hashes registers

/-! ## Both modes -/

/-- The registers that were given the inputs `words`. -/
def registersOf (s : HyperLogLog) (words : List (BitVec 32)) : List ℕ :=
  (words.map finalise).foldl (recorded s) (List.replicate s.registerCount 0)

/-- A sketch after the inputs `words` since it was last empty: their hashes are in the set, or
in the registers. -/
structure Holds (s : HyperLogLog) (words : List (BitVec 32)) : Prop where
  length : s.registers.length = s.registerCount
  sparse : s.dense = false → s.registers = List.replicate s.registerCount 0 ∧
    s.sparseSet = some (setOf (words.map finalise))
  dense : s.dense = true → s.registers = registersOf s words

structure SameShape (s s' : HyperLogLog) : Prop where
  registerCount : s'.registerCount = s.registerCount
  shift : s'.shift = s.shift
  sparseEnabled : s'.sparseEnabled = s.sparseEnabled

theorem registersOf_congr {s s' : HyperLogLog} (hcount : s'.registerCount = s.registerCount)
    (hshift : s'.shift = s.shift) : registersOf s' = registersOf s := by
  funext words
  rw [registersOf, recorded_congr hcount hshift, hcount, registersOf]

theorem length_recorded (s : HyperLogLog) (registers : List ℕ) (h : BitVec 32) :
    (recorded s registers h).length = registers.length := by
  unfold recorded raiseAt
  split
  · rw [List.length_modify]
  · rfl

theorem length_registersOf (s : HyperLogLog) (words : List (BitVec 32)) :
    (registersOf s words).length = s.registerCount := by
  have hfold : ∀ (hashes : List (BitVec 32)) (registers : List ℕ),
      (hashes.foldl (recorded s) registers).length = registers.length := by
    intro hashes
    induction hashes with
    | nil => exact fun _ => rfl
    | cons h hashes ih =>
      intro registers
      rw [List.foldl_cons, ih, length_recorded]
  rw [registersOf, hfold, List.length_replicate]

namespace Holds

variable {s : HyperLogLog} {words : List (BitVec 32)}

theorem convert (h : Holds s words) : (convertToDense s).registers = registersOf s words ∧
    (convertToDense s).dense = true ∧ SameShape s (convertToDense s) := by
  unfold convertToDense
  by_cases hd : s.dense = true
  · rw [if_pos hd]
    exact ⟨h.dense hd, hd, rfl, rfl, rfl⟩
  · obtain ⟨hzeros, hset⟩ := h.sparse (Bool.eq_false_iff.mpr hd)
    have hsame : recorded { s with dense := true } = recorded s := recorded_congr rfl rfl
    rw [if_neg hd]
    split
    · next hnone => cases hset.symm.trans hnone
    · next set hsome =>
      cases hset.symm.trans hsome
      rw [foldl_record, hsame, setOf_recorded]
      refine ⟨?_, rfl, rfl, rfl, rfl⟩
      show (words.map finalise).foldl (recorded s) s.registers = registersOf s words
      rw [hzeros, registersOf]

theorem of_dense {s' : HyperLogLog} (hregisters : s'.registers = registersOf s words)
    (hdense : s'.dense = true) (hshape : SameShape s s') : Holds s' words := by
  refine ⟨?_, fun hsparse => ?_, fun _ => ?_⟩
  · rw [hregisters, length_registersOf, hshape.registerCount]
  · rw [hdense] at hsparse
    cases hsparse
  · rw [hregisters, registersOf_congr hshape.registerCount hshape.shift]

theorem registersOf_concat (s : HyperLogLog) (words : List (BitVec 32)) (word : BitVec 32) :
    registersOf s (words ++ [word]) = recorded s (registersOf s words) (finalise word) := by
  rw [registersOf, List.map_append, List.foldl_append, List.map_singleton, List.foldl_cons,
    List.foldl_nil, registersOf]

theorem addHash (h : Holds s words) (hash : Number) :
    Holds (addHash s hash) (words ++ [toInt32 hash]) ∧ SameShape s (addHash s hash) := by
  generalize hword : toInt32 hash = word
  unfold HyperLogLog.addHash
  rw [hword]
  dsimp only
  split
  · next set hd hsome =>
    obtain ⟨hzeros, hset⟩ := h.sparse hd
    cases hset.symm.trans hsome
    have hone : insert (setOf (words.map finalise)) (finalise word) =
        setOf ((words ++ [word]).map finalise) := by
      rw [List.map_append, List.map_singleton, setOf_concat]
    have hnext : Holds { s with sparseSet := some (setOf ((words ++ [word]).map finalise)) }
        (words ++ [word]) :=
      ⟨h.length, fun _ => ⟨hzeros, rfl⟩, fun hdense => absurd (hd.symm.trans hdense) Bool.false_ne_true⟩
    rw [hone]
    split
    · obtain ⟨hregisters, hdense, hshape⟩ := hnext.convert
      have hshape' : SameShape s _ := ⟨hshape.registerCount, hshape.shift, hshape.sparseEnabled⟩
      exact ⟨of_dense hregisters hdense hshape, hshape'⟩
    · exact ⟨hnext, rfl, rfl, rfl⟩
  · next hnot =>
    have hd : s.dense = true := by
      by_contra hsparse
      have hsparse := Bool.eq_false_iff.mpr hsparse
      exact hnot _ hsparse (h.sparse hsparse).2
    rw [record_eq, h.dense hd, ← registersOf_concat]
    exact ⟨of_dense (s := s) rfl hd ⟨rfl, rfl, rfl⟩, rfl, rfl, rfl⟩

/-- A sketch that may not be sparse is empty again with its registers. -/
theorem reset (h : Holds s words) (hmode : s.sparseEnabled = false → s.dense = true) :
    Holds (reset s) [] ∧ SameShape s (reset s) := by
  have hzeros : s.registers.map (fun _ => 0) = List.replicate s.registerCount 0 := by
    rw [List.map_const', h.length]
  unfold HyperLogLog.reset
  rw [hzeros]
  by_cases he : s.sparseEnabled = true
  · rw [if_pos he]
    refine ⟨⟨List.length_replicate, fun _ => ⟨rfl, rfl⟩, fun hdense => ?_⟩, rfl, rfl, rfl⟩
    exact absurd hdense Bool.false_ne_true
  · rw [if_neg he]
    exact ⟨of_dense (s := s) rfl (hmode (Bool.eq_false_iff.mpr he)) ⟨rfl, rfl, rfl⟩, rfl, rfl, rfl⟩

theorem cardinality_eq (h : Holds s words) (hd : s.dense = false) (ln : ℚ → ℚ) :
    cardinality ln s = words.toFinset.card := by
  obtain ⟨-, hset⟩ := h.sparse hd
  unfold cardinality
  split
  · next set _ hsome =>
    cases hset.symm.trans hsome
    rw [length_setOf]
  · next hnot => exact (hnot _ hd hset).elim

end Holds

theorem SameShape.trans {s s' s'' : HyperLogLog} (h : SameShape s s') (h' : SameShape s' s'') :
    SameShape s s'' where
  registerCount := h'.registerCount.trans h.registerCount
  shift := h'.shift.trans h.shift
  sparseEnabled := h'.sparseEnabled.trans h.sparseEnabled

theorem cardinality_dense {s d : HyperLogLog} (ln : ℚ → ℚ) (hs : s.dense = true) (hd : d.dense = true)
    (hcount : s.registerCount = d.registerCount) (hregisters : s.registers = d.registers) :
    cardinality ln s = cardinality ln d := by
  unfold cardinality
  rw [hs, hd, hcount, hregisters]

theorem dense_addHash {s : HyperLogLog} (hd : s.dense = true) (hash : Number) :
    (addHash s hash).dense = true := by
  unfold addHash
  generalize finalise (toInt32 hash) = h
  dsimp only
  split
  · next hsparse _ => exact absurd (hsparse.symm.trans hd) Bool.false_ne_true
  · rw [record_eq]
    exact hd

theorem inputs_concat (es : List Event) (e : Event) : inputs (es ++ [e]) = match e with
    | .addHash hash => inputs es ++ [toInt32 hash]
    | .reset => [] := by
  unfold inputs
  rw [List.foldl_append, List.foldl_cons, List.foldl_nil]

theorem holds_run (log2 : ℕ → ℚ≥0) (m : ℕ) (o : Options) (es : List Event) :
    let s := run step (initial log2 m o) es
    Holds s (inputs es) ∧ SameShape (initial log2 m o) s ∧ (o.sparse = false → s.dense = true) := by
  induction es using List.reverseRecOn with
  | nil =>
    refine ⟨⟨List.length_replicate, fun hsparse => ?_, fun _ => rfl⟩, ⟨rfl, rfl, rfl⟩, fun ho => ?_⟩
    · have ho : o.sparse = true := by simpa [initial] using hsparse
      refine ⟨rfl, ?_⟩
      show (if o.sparse then some [] else none) = some []
      rw [if_pos ho]
    · simp [initial, ho]
  | append_singleton es e ih =>
    obtain ⟨hholds, hshape, hmode⟩ := ih
    rw [run_append, run_cons, run_nil, inputs_concat]
    generalize run step (initial log2 m o) es = s at *
    cases e with
    | addHash hash =>
      obtain ⟨hholds', hshape'⟩ := hholds.addHash hash
      exact ⟨hholds', hshape.trans hshape', fun ho => dense_addHash (hmode ho) hash⟩
    | reset =>
      have henabled : s.sparseEnabled = o.sparse := hshape.sparseEnabled
      obtain ⟨hholds', hshape'⟩ := hholds.reset fun hoff => hmode (henabled.symm.trans hoff)
      refine ⟨hholds', hshape.trans hshape', fun ho => ?_⟩
      show (HyperLogLog.reset s).dense = true
      unfold HyperLogLog.reset
      rw [henabled, ho]
      exact hmode ho

theorem new_finite {q : ℚ} (log2 : ℕ → ℚ≥0) (o : Options) (h : q.den = 1 ∧ 1 ≤ q ∧
    BitVec.ofInt 32 q.num &&& BitVec.ofInt 32 (q.num - 1) = 0) :
    new log2 (.finite q) o = .ok (initial log2 q.num.toNat o) := by
  unfold new
  dsimp only
  rw [if_pos h]

theorem new_eq_initial {log2 : ℕ → ℚ≥0} {registerCount : Number} {o : Options} {s : HyperLogLog}
    (h : new log2 registerCount o = .ok s) : ∃ q : ℚ, registerCount = .finite q ∧
      s = initial log2 q.num.toNat o := by
  unfold new at h
  cases registerCount with
  | finite q =>
    dsimp only at h
    split at h
    · exact ⟨q, rfl, (Except.ok.inj h).symm⟩
    · cases h
  | infinity | negInfinity | nan => cases h

/-- A sketch that starts sparse has, from the conversion on, the registers and the estimate of one
that was dense from the start, and would have them if it were converted now; while it is sparse
it counts the distinct 32-bit inputs. -/
theorem sparse_agrees (log2 : ℕ → ℚ≥0) (ln : ℚ → ℚ) (registerCount : Number) (o : Options)
    (s d : HyperLogLog) (hs : new log2 registerCount { o with sparse := true } = .ok s)
    (hd : new log2 registerCount { o with sparse := false } = .ok d) (es : List Event) :
    let s' := run step s es
    let d' := run step d es
    (convertToDense s').registers = d'.registers ∧
    (s'.dense = true → s'.registers = d'.registers ∧ cardinality ln s' = cardinality ln d') ∧
    (s'.dense = false → cardinality ln s' = (inputs es).toFinset.card) := by
  obtain ⟨q, hq, rfl⟩ := new_eq_initial hs
  obtain ⟨q', hq', rfl⟩ := new_eq_initial hd
  cases hq.symm.trans hq'
  obtain ⟨hholds, hshape, -⟩ := holds_run log2 q.num.toNat { o with sparse := true } es
  obtain ⟨hholds', hshape', hdense⟩ := holds_run log2 q.num.toNat { o with sparse := false } es
  dsimp only
  generalize run step (initial log2 q.num.toNat { o with sparse := true }) es = s at *
  generalize run step (initial log2 q.num.toNat { o with sparse := false }) es = d at *
  have hcount : s.registerCount = d.registerCount := hshape.registerCount.trans hshape'.registerCount.symm
  have hsame : registersOf s = registersOf d :=
    registersOf_congr hcount (hshape.shift.trans hshape'.shift.symm)
  have hdense' : d.dense = true := hdense rfl
  have hfrom : d.registers = registersOf s (inputs es) := by rw [hholds'.dense hdense', hsame]
  refine ⟨hholds.convert.1.trans hfrom.symm, fun hs => ?_, fun hs => hholds.cardinality_eq hs ln⟩
  have hregisters : s.registers = d.registers := (hholds.dense hs).trans hfrom.symm
  exact ⟨hregisters, cardinality_dense ln hs hdense' hcount hregisters⟩

/-- Sixteen registers and a threshold of two: the third distinct hash converts. -/
theorem sparse_agrees_sixteen :
    let o : Options := { sparseThreshold := .finite 2 }
    let s := initial (fun _ => 4) 16 { o with sparse := true }
    let d := initial (fun _ => 4) 16 { o with sparse := false }
    let es : List Event := [.addHash (.finite 1), .addHash (.finite 2), .addHash (.finite 1)]
    let es' := es ++ [.addHash (.finite 3)]
    cardinality id (run step s es) = (inputs es).toFinset.card ∧
    (run step s es').registers = (run step d es').registers := by
  intro o s d es es'
  have hcheck : (16 : ℚ).den = 1 ∧ 1 ≤ (16 : ℚ) ∧
      BitVec.ofInt 32 (16 : ℚ).num &&& BitVec.ofInt 32 ((16 : ℚ).num - 1) = 0 := by decide +kernel
  have hs : new (fun _ => 4) (.finite 16) { o with sparse := true } = .ok s := new_finite _ _ hcheck
  have hd : new (fun _ => 4) (.finite 16) { o with sparse := false } = .ok d := new_finite _ _ hcheck
  have hsparse : (run step s es).dense = false := by decide +kernel
  have hdense : (run step s es').dense = true := by decide +kernel
  have hfirst := sparse_agrees (fun _ => 4) id (.finite 16) o s d hs hd es
  have hlast := sparse_agrees (fun _ => 4) id (.finite 16) o s d hs hd es'
  exact ⟨hfirst.2.2 hsparse, (hlast.2.1 hdense).1⟩

end PerformanceHelpers.HyperLogLog
