import Mathlib.Data.Rat.Floor
import Mathlib.Tactic.IntervalCases
import PerformanceHelpers.Number
import PerformanceHelpers.Run

/- `SmallLfuSketch` (`src/utils/smallLfu.js`): a Count-Min sketch of 4-bit counters.

   Two counters share a byte, and a reset halves four bytes at a time. The counter of a
   key in a row is found by 32-bit arithmetic, so that a sketch of more than 2^31
   counters has rows it cannot reach: a typed array reads `undefined` there, which counts
   as 0, and drops what is written.

   Two functions are left open: `Math.ceil(Math.log2(x))`, which the constructor takes of
   the width, and `HyperLogLog.cardinality`, which a reset takes of the hashes since the
   last one. The first decides how wide the sketch is, the second when it resets next.

   What is proved:
     1. `nibble_halve` — a reset halves every counter, the packed words included.
     2. `nibble_bumped` — an increment lowers no counter, and raises those of its key.
     3. `never_undercounts` — no estimate is below the exact count, in any run, if and
        only if the sketch has at most 2^31 counters. -/
namespace PerformanceHelpers.SmallLfuSketch

/-! ## Keys -/

/-- A string, another primitive, or an object or function. -/
inductive Key (P O : Type) where
  | string (units : List (BitVec 16))
  | primitive (p : P)
  | object (o : O)
  deriving DecidableEq

def mix32 (h k : BitVec 32) : BitVec 32 :=
  let h := h + k
  let h := (h ^^^ (h >>> 16)) * 0x45d9f3b
  let h := (h ^^^ (h >>> 16)) * 0x45d9f3b
  h ^^^ (h >>> 16)

/-- `hashKey` of the key's text: FNV-1a. -/
def hashKey (text : List (BitVec 16)) : BitVec 32 :=
  text.foldl (fun h unit => (h ^^^ unit.setWidth 32) * 0x01000193) 0x811c9dc5

/-! ## Counters -/

/-- The counter at a flat index. Outside the array a byte is `undefined`. -/
def nibble (counters : List (BitVec 8)) (index : ℤ) : ℕ :=
  let at' := index / 2
  let byte := if 0 ≤ at' then counters.getD at'.toNat 0 else 0
  if index % 2 = 1 then (byte >>> 4).toNat else (byte &&& 0x0f).toNat

def withNibble (byte : BitVec 8) (upper : Bool) (value : ℕ) : BitVec 8 :=
  if upper then (byte &&& 0x0f) ||| ((BitVec.ofNat 8 value &&& 0x0f) <<< 4)
  else (byte &&& 0xf0) ||| (BitVec.ofNat 8 value &&& 0x0f)

def setNibble (counters : List (BitVec 8)) (index : ℤ) (value : ℕ) : List (BitVec 8) :=
  let at' := index / 2
  if 0 ≤ at' then
    counters.set at'.toNat (withNibble (counters.getD at'.toNat 0) (decide (index % 2 = 1)) value)
  else counters

/-- `((c >>> 1) & 0x07) | (((c >>> 5) & 0x07) << 4)`. -/
def halveByte (c : BitVec 8) : BitVec 8 := ((c >>> 1) &&& 0x07) ||| (((c >>> 5) &&& 0x07) <<< 4)

def halveWord (w : BitVec 32) : BitVec 32 :=
  ((w >>> 1) &&& 0x07070707) ||| (((w >>> 5) &&& 0x07070707) <<< 4)

/-- An element of the `Uint32Array` over four bytes. -/
def word (a b c d : BitVec 8) : BitVec 32 :=
  a.setWidth 32 ||| (b.setWidth 32 <<< 8) ||| (c.setWidth 32 <<< 16) ||| (d.setWidth 32 <<< 24)

def byteOf (w : BitVec 32) (p : ℕ) : BitVec 8 := (w >>> (8 * p)).setWidth 8

/-- The loops of `reset`: the words, then the bytes that are left. -/
def halve : List (BitVec 8) → List (BitVec 8)
  | a :: b :: c :: d :: rest =>
    let w := halveWord (word a b c d)
    byteOf w 0 :: byteOf w 1 :: byteOf w 2 :: byteOf w 3 :: halve rest
  | tail => tail.map halveByte

/-! ## The sketch -/

structure Options where
  width : Number := .finite 64
  depth : Number := .finite 4
  sampleSize : Number := .finite 10

/-- `Math.max(2, 1 << e)`. -/
def shifted (e : ℤ) : ℕ := (max 2 (Int.bmod (2 ^ (e % 32).toNat) (2 ^ 32))).toNat

def widthOf (ceilLog2 : ℤ → ℤ) (width : Number) : ℕ :=
  match width with
  | .finite q => shifted (ceilLog2 (if q = 0 then 64 else max 2 ⌊q⌋))
  -- `1 << Infinity` is 1
  | .infinity => shifted 0
  | .negInfinity => shifted (ceilLog2 2)
  | .nan => shifted (ceilLog2 64)

def depthOf (depth : Number) : ℕ :=
  match depth with
  | .finite q => (max 1 (min 8 (if q = 0 then 4 else ⌊q⌋))).toNat
  | .infinity => 8
  | .negInfinity => 1
  | .nan => 4

/-- How many increments before a reset; `⊤` is `Infinity`. -/
def sampleSizeOf (sampleSize : Number) : WithTop ℚ :=
  match sampleSize with
  | .finite q => (((max 1 (if q = 0 then 10 else ⌊q⌋) : ℤ) : ℚ) : WithTop ℚ)
  | .infinity => ⊤
  | .negInfinity => 1
  | .nan => 10

end PerformanceHelpers.SmallLfuSketch

namespace PerformanceHelpers

/-- The fields of a `SmallLfuSketch`, and the hashes its `_hll` was given. -/
structure SmallLfuSketch (O : Type) where
  width : ℕ
  depth : ℕ
  sampleSize : WithTop ℚ
  seed : BitVec 32
  counters : List (BitVec 8)
  sample : ℕ := 0
  resets : ℕ := 0
  hashes : List (BitVec 32) := []
  ids : O → Option ℕ := fun _ => none
  nextId : ℕ := 0

namespace SmallLfuSketch

variable {P O : Type}

/-- The constructor. `(w * d) >>> 1` is of 32 bits. -/
def new (ceilLog2 : ℤ → ℤ) (o : Options) (seed : BitVec 32) : SmallLfuSketch O where
  width := widthOf ceilLog2 o.width
  depth := depthOf o.depth
  sampleSize := sampleSizeOf o.sampleSize
  seed := seed
  counters := List.replicate (widthOf ceilLog2 o.width * depthOf o.depth % 2 ^ 32 / 2) 0

def column (s : SmallLfuSketch O) (hash : BitVec 32) (row : ℕ) : ℕ :=
  (mix32 hash (s.seed + BitVec.ofNat 32 (0x9e3779b1 * row)) &&& BitVec.ofNat 32 (s.width - 1)).toNat

def indexFor (s : SmallLfuSketch O) (hash : BitVec 32) (row : ℕ) : ℤ :=
  Int.bmod (row * s.width + s.column hash row) (2 ^ 32)

def get (s : SmallLfuSketch O) (index : ℤ) : ℕ := nibble s.counters index

def set (s : SmallLfuSketch O) (index : ℤ) (value : ℕ) : SmallLfuSketch O :=
  { s with counters := setNibble s.counters index value }

section
variable (text : P → List (BitVec 16))

/-- `_hash`: an object is given an id when it is first met. -/
def hash [DecidableEq O] (s : SmallLfuSketch O) (key : Key P O) : SmallLfuSketch O × BitVec 32 :=
  match key with
  | .string units => (s, hashKey units)
  | .primitive p => (s, hashKey (text p))
  | .object o =>
    match s.ids o with
    | some id => (s, BitVec.ofNat 32 id)
    | none =>
      ({ s with ids := Function.update s.ids o (some s.nextId), nextId := s.nextId + 1 },
        BitVec.ofNat 32 s.nextId)

/-- One row of `increment`. -/
def bump (hash : BitVec 32) (s : SmallLfuSketch O) (row : ℕ) : SmallLfuSketch O :=
  let i := s.indexFor hash row
  let v := s.get i
  if v < 15 then s.set i (v + 1) else s

/-- `reset`: the half-life, with the next one tuned to the keys seen. -/
def reset (cardinality : List (BitVec 32) → ℚ) (s : SmallLfuSketch O) : SmallLfuSketch O :=
  { s with
    counters := halve s.counters
    resets := s.resets + 1
    hashes := []
    sampleSize := (((min (max 10 ⌊10 * cardinality s.hashes + 1 / 2⌋) (4 * s.width * s.depth) : ℤ) : ℚ) : WithTop ℚ) }

def increment [DecidableEq O] (cardinality : List (BitVec 32) → ℚ) (s : SmallLfuSketch O) (key : Key P O) :
    SmallLfuSketch O :=
  let (s, h) := hash text s key
  let s := (List.range s.depth).foldl (bump h) s
  let s := { s with hashes := s.hashes ++ [h], sample := s.sample + 1 }
  if s.sampleSize ≤ ((s.sample : ℚ) : WithTop ℚ) then { reset cardinality s with sample := 0 } else s

def estimate [DecidableEq O] (s : SmallLfuSketch O) (key : Key P O) : SmallLfuSketch O × ℕ :=
  let (s, h) := hash text s key
  (s, (List.range s.depth).foldl (fun least row => min least (s.get (s.indexFor h row))) 15)

end

/-! ## The counters of an array -/

section
variable {counters : List (BitVec 8)} {i j : ℤ} {v : ℕ}

/-- The two halves of a byte of which one is set. -/
theorem withNibble_halves : ∀ b : BitVec 8, ∀ v < 16,
    ((withNibble b true v) >>> 4).toNat = v ∧ ((withNibble b true v) &&& 0x0f) = (b &&& 0x0f) ∧
      ((withNibble b false v) &&& 0x0f).toNat = v ∧ (withNibble b false v) >>> 4 = b >>> 4 := by
  decide +kernel

theorem getD_set {n : ℕ} {byte : BitVec 8} (hn : n < counters.length) :
    (counters.set n byte).getD n 0 = byte := by
  simp [List.getD_eq_getElem?_getD, hn]

theorem nibble_setNibble (hi : 0 ≤ i) (hlen : i < 2 * counters.length) (hv : v < 16) :
    nibble (setNibble counters i v) i = v := by
  have hat : 0 ≤ i / 2 := by omega
  have hin : (i / 2).toNat < counters.length := by omega
  obtain ⟨hupper, -, hlower, -⟩ := withNibble_halves (counters.getD (i / 2).toNat 0) v hv
  simp only [nibble, setNibble, if_pos hat]
  rw [getD_set hin]
  by_cases hodd : i % 2 = 1
  · rw [if_pos hodd, decide_eq_true hodd]
    exact hupper
  · rw [if_neg hodd, decide_eq_false hodd]
    exact hlower

theorem nibble_setNibble_ne (hj : j ≠ i) (hv : v < 16) :
    nibble (setNibble counters i v) j = nibble counters j := by
  by_cases hat : 0 ≤ i / 2
  · by_cases hsame : j / 2 = i / 2
    · -- the other half of the byte
      simp only [nibble, setNibble, if_pos hat, hsame]
      by_cases hin : (i / 2).toNat < counters.length
      · obtain ⟨-, hlower, -, hupper⟩ := withNibble_halves (counters.getD (i / 2).toNat 0) v hv
        rw [getD_set hin]
        by_cases hodd : j % 2 = 1
        · have heven : ¬i % 2 = 1 := by omega
          rw [if_pos hodd, if_pos hodd, decide_eq_false heven, hupper]
        · have hodd' : i % 2 = 1 := by omega
          rw [if_neg hodd, if_neg hodd, decide_eq_true hodd', hlower]
      · rw [List.set_eq_of_length_le (by omega)]
    · have hne : ∀ h : 0 ≤ j / 2, (i / 2).toNat ≠ (j / 2).toNat := by omega
      simp only [nibble, setNibble, if_pos hat]
      by_cases hat' : 0 ≤ j / 2
      · simp only [if_pos hat', List.getD_eq_getElem?_getD, List.getElem?_set_ne (hne hat')]
      · simp only [if_neg hat']
  · simp only [setNibble, if_neg hat]

theorem byteOf_halveWord (a b c d : BitVec 8) :
    byteOf (halveWord (word a b c d)) 0 = halveByte a ∧ byteOf (halveWord (word a b c d)) 1 = halveByte b ∧
      byteOf (halveWord (word a b c d)) 2 = halveByte c ∧
      byteOf (halveWord (word a b c d)) 3 = halveByte d := by
  refine ⟨?_, ?_, ?_, ?_⟩ <;>
  · apply BitVec.eq_of_getLsbD_eq
    intro i hi
    interval_cases i <;> simp [byteOf, halveWord, halveByte, word]

/-- Four bytes at a time come to the same as one. -/
theorem halve_eq (counters : List (BitVec 8)) : halve counters = counters.map halveByte := by
  induction counters using halve.induct with
  | case1 a b c d rest ih =>
    obtain ⟨ha, hb, hc, hd⟩ := byteOf_halveWord a b c d
    simp only [halve, ha, hb, hc, hd, ih, List.map_cons]
  | case2 tail h =>
    rw [halve]
    exact h

theorem nibble_halve (counters : List (BitVec 8)) (i : ℤ) :
    nibble (halve counters) i = nibble counters i / 2 := by
  have hlow : ∀ b : BitVec 8, (halveByte b &&& 0x0f).toNat = (b &&& 0x0f).toNat / 2 := by decide +kernel
  have hhigh : ∀ b : BitVec 8, (halveByte b >>> 4).toNat = (b >>> 4).toNat / 2 := by decide +kernel
  have hbyte : (if 0 ≤ i / 2 then (halve counters).getD (i / 2).toNat 0 else 0) =
      halveByte (if 0 ≤ i / 2 then counters.getD (i / 2).toNat 0 else 0) := by
    split
    · rw [halve_eq, List.getD_eq_getElem?_getD, List.getD_eq_getElem?_getD, List.getElem?_map]
      cases counters[(i / 2).toNat]? <;> rfl
    · rfl
  simp only [nibble, hbyte]
  split
  · exact hhigh _
  · exact hlow _

def bumped (counters : List (BitVec 8)) (i : ℤ) : List (BitVec 8) :=
  if nibble counters i < 15 then setNibble counters i (nibble counters i + 1) else counters

theorem length_bumped (counters : List (BitVec 8)) (i : ℤ) :
    (bumped counters i).length = counters.length := by
  simp only [bumped, setNibble]
  split
  · split
    · exact List.length_set
    · rfl
  · rfl

/-- A counter that is raised lowers none. -/
theorem le_nibble_bumped (counters : List (BitVec 8)) (i j : ℤ) :
    nibble counters j ≤ nibble (bumped counters i) j := by
  simp only [bumped]
  split
  · next hlt =>
    by_cases hj : j = i
    · subst hj
      by_cases hin : 0 ≤ j ∧ j < 2 * counters.length
      · rw [nibble_setNibble hin.1 hin.2 (by omega)]
        omega
      · -- outside the array nothing is written
        have hsame : setNibble counters j (nibble counters j + 1) = counters := by
          simp only [setNibble]
          split
          · exact List.set_eq_of_length_le (by omega)
          · rfl
        rw [hsame]
    · rw [nibble_setNibble_ne hj (by omega)]
  · exact le_rfl

theorem nibble_bumped (hi : 0 ≤ i) (hlen : i < 2 * counters.length) :
    min 15 (nibble counters i + 1) ≤ nibble (bumped counters i) i := by
  simp only [bumped]
  split
  · next hlt =>
    rw [nibble_setNibble hi hlen (by omega)]
    omega
  · omega

end

/-! ## The rows of a key -/

section
variable {s : SmallLfuSketch O} {h : BitVec 32} {row : ℕ}

/-- Every counter of the sketch has an index of 32 bits, and a place in the array. -/
structure Fits (s : SmallLfuSketch O) : Prop where
  pos : 0 < s.width
  few : s.width * s.depth ≤ 2 ^ 31
  length : 2 * s.counters.length = s.width * s.depth

theorem column_lt (hpos : 0 < s.width) : s.column h row < s.width := by
  have hle : s.column h row ≤ (BitVec.ofNat 32 (s.width - 1)).toNat := by
    rw [column, BitVec.toNat_and]
    exact Nat.and_le_right
  have hmod : (BitVec.ofNat 32 (s.width - 1)).toNat ≤ s.width - 1 := by
    rw [BitVec.toNat_ofNat]
    exact Nat.mod_le _ _
  omega

theorem bmod_eq {n : ℕ} (hn : n < 2 ^ 31) : Int.bmod (n : ℤ) (2 ^ 32) = n := by
  apply Int.bmod_eq_of_le_mul_two <;> omega

theorem Fits.index (hfits : Fits s) (hrow : row < s.depth) :
    0 ≤ s.indexFor h row ∧ s.indexFor h row < 2 * s.counters.length := by
  have hcolumn : s.column h row < s.width := column_lt hfits.pos
  have hend : (row + 1) * s.width ≤ s.depth * s.width := Nat.mul_le_mul_right _ hrow
  have hfew := hfits.few
  have hlength := hfits.length
  rw [Nat.mul_comm s.width] at hfew hlength
  rw [Nat.add_mul, Nat.one_mul] at hend
  have hlt : row * s.width + s.column h row < 2 ^ 31 := by omega
  have hcast : ((row * s.width + s.column h row : ℕ) : ℤ) = row * s.width + s.column h row := by
    rw [Nat.cast_add, Nat.cast_mul]
  have hindex : s.indexFor h row = ((row * s.width + s.column h row : ℕ) : ℤ) := by
    unfold indexFor
    rw [← hcast]
    exact bmod_eq hlt
  omega

def bumpedRows (s : SmallLfuSketch O) (h : BitVec 32) (rows : List ℕ) : List (BitVec 8) :=
  rows.foldl (fun counters row => bumped counters (s.indexFor h row)) s.counters

theorem foldl_bump (s : SmallLfuSketch O) (h : BitVec 32) (rows : List ℕ) :
    rows.foldl (bump h) s = { s with counters := bumpedRows s h rows } := by
  induction rows generalizing s with
  | nil => rfl
  | cons row rows ih =>
    have hbump : bump h s row = { s with counters := bumped s.counters (s.indexFor h row) } := by
      by_cases hlt : nibble s.counters (s.indexFor h row) < 15
      · rw [bump, bumped, if_pos hlt]
        exact if_pos hlt
      · rw [bump, bumped, if_neg hlt]
        exact if_neg hlt
    have hindex : ∀ counters, ({ s with counters } : SmallLfuSketch O).indexFor h = s.indexFor h := by
      intro counters
      funext row
      unfold indexFor column
      rfl
    simp only [List.foldl_cons, ih, hbump, bumpedRows, hindex]

section
variable (f : ℕ → ℤ) (rows : List ℕ) (counters : List (BitVec 8))

theorem foldl_bumped (j : ℤ) :
    nibble counters j ≤ nibble (rows.foldl (fun counters row => bumped counters (f row)) counters) j := by
  induction rows generalizing counters with
  | nil => exact le_rfl
  | cons row rows ih => exact (le_nibble_bumped counters (f row) j).trans (ih _)

/-- The increment of a key raises its counter in every row. -/
theorem foldl_bumped_row (hrow : row ∈ rows)
    (hin : 0 ≤ f row ∧ f row < 2 * counters.length) : min 15 (nibble counters (f row) + 1) ≤
      nibble (rows.foldl (fun counters row => bumped counters (f row)) counters) (f row) := by
  induction rows generalizing counters with
  | nil => cases hrow
  | cons row' rows ih =>
    rw [List.foldl_cons]
    by_cases hsame : row = row'
    · subst hsame
      exact (nibble_bumped hin.1 hin.2).trans (foldl_bumped f rows _ _)
    · have hmem : row ∈ rows := (List.mem_cons.mp hrow).resolve_left hsame
      have hraised := le_nibble_bumped counters (f row') (f row)
      have hrest := ih (bumped counters (f row')) hmem (by rw [length_bumped]; exact hin)
      omega

theorem length_foldl_bumped :
    (rows.foldl (fun counters row => bumped counters (f row)) counters).length = counters.length := by
  induction rows generalizing counters with
  | nil => rfl
  | cons row rows ih => exact (ih _).trans (length_bumped _ _)

end

theorem le_foldl_min {n : ℕ} (f : ℕ → ℕ) (rows : List ℕ) (least : ℕ) :
    n ≤ rows.foldl (fun least row => min least (f row)) least ↔ n ≤ least ∧ ∀ row ∈ rows, n ≤ f row := by
  induction rows generalizing least with
  | nil => simp
  | cons row rows ih =>
    rw [List.foldl_cons, ih, le_min_iff, List.forall_mem_cons, and_assoc]

end

/-! ## The hash of a key -/

section
variable (text : P → List (BitVec 16))

def hashOf (s : SmallLfuSketch O) : Key P O → Option (BitVec 32)
  | .string units => some (hashKey units)
  | .primitive p => some (hashKey (text p))
  | .object o => (s.ids o).map fun id => BitVec.ofNat 32 id

variable [DecidableEq O]

theorem hash_frame (s : SmallLfuSketch O) (key : Key P O) : ∃ ids nextId,
    (hash text s key).1 = { s with ids, nextId } := by
  cases key with
  | string units | primitive p => exact ⟨_, _, rfl⟩
  | object o =>
    cases hid : s.ids o with
    | some id => exact ⟨s.ids, s.nextId, by simp only [hash, hid]⟩
    | none => exact ⟨Function.update s.ids o (some s.nextId), s.nextId + 1, by simp only [hash, hid]⟩

/-- The key has its hash from then on, and the others keep theirs. -/
theorem hashOf_hash (s : SmallLfuSketch O) (key : Key P O) :
    hashOf text (hash text s key).1 key = some (hash text s key).2 ∧
      (hashOf text s key = none ∨ hashOf text s key = some (hash text s key).2) ∧
      ∀ key' ≠ key, hashOf text (hash text s key).1 key' = hashOf text s key' := by
  cases key with
  | string units | primitive p => exact ⟨rfl, Or.inr rfl, fun _ _ => rfl⟩
  | object o =>
    cases hid : s.ids o with
    | some id => simp [hash, hashOf, hid]
    | none =>
      refine ⟨by simp [hash, hashOf, hid], Or.inl (by simp [hashOf, hid]), fun key' hne => ?_⟩
      cases key' with
      | string units | primitive p => rfl
      | object o' =>
        have hne' : o' ≠ o := fun h => hne (by rw [h])
        simp [hash, hashOf, hid, Function.update_of_ne hne']

end

/-! ## Runs -/

/-- What is asked of a sketch. -/
inductive Event (P O : Type) where
  | increment (key : Key P O)
  | estimate (key : Key P O)

structure Counted (P O : Type) where
  sketch : SmallLfuSketch O
  count : Key P O → ℕ := fun _ => 0

/-- The exact counters saturate at 15, and are halved when the sketch is. -/
def step [DecidableEq P] [DecidableEq O] (text : P → List (BitVec 16))
    (cardinality : List (BitVec 32) → ℚ) (c : Counted P O) : Event P O → Counted P O
  | .increment key =>
    let sketch := increment text cardinality c.sketch key
    let count := Function.update c.count key (min 15 (c.count key + 1))
    ⟨sketch, if sketch.resets = c.sketch.resets then count else fun key => count key / 2⟩
  | .estimate key => ⟨(estimate text c.sketch key).1, c.count⟩

structure Covers (text : P → List (BitVec 16)) (s : SmallLfuSketch O) (count : Key P O → ℕ) : Prop where
  fits : Fits s
  saturated : ∀ key, count key ≤ 15
  covered : ∀ key h, hashOf text s key = some h → ∀ row < s.depth, count key ≤ s.get (s.indexFor h row)
  unseen : ∀ key, hashOf text s key = none → count key = 0

section
variable {text : P → List (BitVec 16)} {cardinality : List (BitVec 32) → ℚ} {s s' : SmallLfuSketch O}
  {count : Key P O → ℕ}

theorem hashOf_congr (hids : s'.ids = s.ids) (key : Key P O) : hashOf text s' key = hashOf text s key := by
  cases key with
  | string units | primitive p => rfl
  | object o => rw [hashOf, hashOf, hids]

theorem indexFor_congr (hwidth : s'.width = s.width) (hseed : s'.seed = s.seed) :
    s'.indexFor = s.indexFor := by
  funext h row
  unfold indexFor column
  rw [hwidth, hseed]

/-- The counters, the ids and the shape of a sketch are all that matters. -/
theorem Covers.congr (hcovers : Covers text s count) (hcounters : s'.counters = s.counters)
    (hids : s'.ids = s.ids) (hwidth : s'.width = s.width) (hdepth : s'.depth = s.depth)
    (hseed : s'.seed = s.seed) : Covers text s' count := by
  refine ⟨⟨?_, ?_, ?_⟩, hcovers.saturated, fun key h hh row hrow => ?_, fun key hh => ?_⟩
  · rw [hwidth]
    exact hcovers.fits.pos
  · rw [hwidth, hdepth]
    exact hcovers.fits.few
  · rw [hcounters, hwidth, hdepth]
    exact hcovers.fits.length
  · rw [hashOf_congr hids] at hh
    rw [hdepth] at hrow
    rw [get, hcounters, indexFor_congr hwidth hseed]
    exact hcovers.covered key h hh row hrow
  · rw [hashOf_congr hids] at hh
    exact hcovers.unseen key hh

theorem Covers.reset (cardinality : List (BitVec 32) → ℚ) (hcovers : Covers text s count) :
    Covers text (reset cardinality s) fun key => count key / 2 := by
  have hlength : (halve s.counters).length = s.counters.length := by
    rw [halve_eq, List.length_map]
  refine ⟨⟨hcovers.fits.pos, hcovers.fits.few, ?_⟩, fun key => ?_, fun key h hh row hrow => ?_,
    fun key hh => ?_⟩
  · show 2 * (halve s.counters).length = _
    rw [hlength]
    exact hcovers.fits.length
  · have hle := hcovers.saturated key
    omega
  · have hle := hcovers.covered key h ((hashOf_congr rfl key).symm.trans hh) row hrow
    have hget : (SmallLfuSketch.reset cardinality s).get (s.indexFor h row) = s.get (s.indexFor h row) / 2 :=
      nibble_halve s.counters _
    have hindex : (SmallLfuSketch.reset cardinality s).indexFor h row = s.indexFor h row :=
      congrFun (congrFun (indexFor_congr rfl rfl) h) row
    rw [hindex, hget]
    exact Nat.div_le_div_right hle
  · show count key / 2 = 0
    rw [hcovers.unseen key ((hashOf_congr rfl key).symm.trans hh)]

variable [DecidableEq P] [DecidableEq O]

theorem Covers.hashed (hcovers : Covers text s count) (key : Key P O) :
    Covers text (hash text s key).1 count := by
  obtain ⟨ids, nextId, hframe⟩ := hash_frame text s key
  obtain ⟨hown, hold, hothers⟩ := hashOf_hash text s key
  have hwidth : (hash text s key).1.width = s.width := by rw [hframe]
  have hdepth : (hash text s key).1.depth = s.depth := by rw [hframe]
  have hseed : (hash text s key).1.seed = s.seed := by rw [hframe]
  have hcounters : (hash text s key).1.counters = s.counters := by rw [hframe]
  refine ⟨⟨?_, ?_, ?_⟩, hcovers.saturated, fun key' h hh row hrow => ?_, fun key' hh => ?_⟩
  · rw [hwidth]
    exact hcovers.fits.pos
  · rw [hwidth, hdepth]
    exact hcovers.fits.few
  · rw [hcounters, hwidth, hdepth]
    exact hcovers.fits.length
  · rw [hdepth] at hrow
    rw [get, hcounters, indexFor_congr hwidth hseed]
    by_cases hkey : key' = key
    · subst hkey
      rcases hold with hnone | hsome
      · rw [hcovers.unseen key' hnone]
        exact Nat.zero_le _
      · exact hcovers.covered key' h (hsome.trans (hown.symm.trans hh)) row hrow
    · exact hcovers.covered key' h ((hothers key' hkey).symm.trans hh) row hrow
  · have hkey : key' ≠ key := by
      rintro rfl
      rw [hown] at hh
      cases hh
    exact hcovers.unseen key' ((hothers key' hkey).symm.trans hh)

theorem Covers.bumped {key : Key P O} {h : BitVec 32} (hcovers : Covers text s count)
    (hkey : hashOf text s key = some h) :
    Covers text { s with counters := bumpedRows s h (List.range s.depth) }
      (Function.update count key (min 15 (count key + 1))) := by
  have hindex : ∀ counters, ({ s with counters } : SmallLfuSketch O).indexFor = s.indexFor :=
    fun _ => indexFor_congr rfl rfl
  refine ⟨⟨hcovers.fits.pos, hcovers.fits.few, ?_⟩, fun key' => ?_, fun key' h' hh row hrow => ?_,
    fun key' hh => ?_⟩
  · show 2 * (bumpedRows s h (List.range s.depth)).length = _
    rw [bumpedRows, length_foldl_bumped]
    exact hcovers.fits.length
  · rw [Function.update_apply]
    split
    · exact min_le_left _ _
    · exact hcovers.saturated key'
  · have hh' : hashOf text s key' = some h' := (hashOf_congr rfl key').symm.trans hh
    have hle : count key' ≤ nibble s.counters (s.indexFor h' row) := hcovers.covered key' h' hh' row hrow
    rw [hindex]
    show _ ≤ nibble (bumpedRows s h (List.range s.depth)) (s.indexFor h' row)
    rw [Function.update_apply]
    split
    · next hsame =>
      rw [hsame] at hh' hle
      obtain rfl := Option.some.inj (hkey.symm.trans hh')
      have hraised := foldl_bumped_row (s.indexFor h) (List.range s.depth) s.counters
        (List.mem_range.mpr hrow) (hcovers.fits.index hrow)
      rw [bumpedRows]
      omega
    · exact hle.trans (foldl_bumped (s.indexFor h) (List.range s.depth) s.counters _)
  · have hh' : hashOf text s key' = none := (hashOf_congr rfl key').symm.trans hh
    have hne : key' ≠ key := by
      rintro rfl
      rw [hkey] at hh'
      cases hh'
    rw [Function.update_of_ne hne]
    exact hcovers.unseen key' hh'

def raised (text : P → List (BitVec 16)) (s : SmallLfuSketch O) (key : Key P O) : SmallLfuSketch O :=
  let (s, h) := hash text s key
  let s := { s with counters := bumpedRows s h (List.range s.depth) }
  { s with hashes := s.hashes ++ [h], sample := s.sample + 1 }

omit [DecidableEq P] in
theorem increment_eq (key : Key P O) : increment text cardinality s key =
    if (raised text s key).sampleSize ≤ (((raised text s key).sample : ℚ) : WithTop ℚ) then
      { SmallLfuSketch.reset cardinality (raised text s key) with sample := 0 }
    else raised text s key := by
  unfold increment raised
  simp only [foldl_bump]

omit [DecidableEq P] in
theorem raised_resets (text : P → List (BitVec 16)) (s : SmallLfuSketch O) (key : Key P O) :
    (raised text s key).resets = s.resets := by
  obtain ⟨ids, nextId, hframe⟩ := hash_frame text s key
  show (hash text s key).1.resets = s.resets
  rw [hframe]

theorem Covers.step {c : Counted P O} (hcovers : Covers text c.sketch c.count) (e : Event P O) :
    Covers text (step text cardinality c e).sketch (step text cardinality c e).count := by
  cases e with
  | estimate key => exact hcovers.hashed key
  | increment key =>
    have hraised : Covers text (raised text c.sketch key)
        (Function.update c.count key (min 15 (c.count key + 1))) :=
      ((hcovers.hashed key).bumped (hashOf_hash text c.sketch key).1).congr rfl rfl rfl rfl rfl
    have hresets := raised_resets text c.sketch key
    simp only [SmallLfuSketch.step, increment_eq]
    by_cases hreset : (raised text c.sketch key).sampleSize ≤
        (((raised text c.sketch key).sample : ℚ) : WithTop ℚ)
    · rw [if_pos hreset, if_neg ?_]
      · exact (hraised.reset cardinality).congr rfl rfl rfl rfl rfl
      · show ¬(raised text c.sketch key).resets + 1 = c.sketch.resets
        omega
    · rw [if_neg hreset, if_pos hresets]
      exact hraised

theorem Covers.estimate (hcovers : Covers text s count) (key : Key P O) :
    count key ≤ (estimate text s key).2 := by
  have hhashed := hcovers.hashed key
  simp only [SmallLfuSketch.estimate]
  rw [le_foldl_min]
  exact ⟨hhashed.saturated key, fun row hrow =>
    hhashed.covered key _ (hashOf_hash text s key).1 row (List.mem_range.mp hrow)⟩

end

/-! ## How many counters -/

theorem shifted_pow (e : ℤ) : ∃ n, 1 ≤ n ∧ n ≤ 30 ∧ shifted e = 2 ^ n := by
  have hlt : (e % 32).toNat < 32 := by omega
  unfold shifted
  generalize (e % 32).toNat = r at hlt
  -- `1 << 31` is negative, and `1 << 0` is 1
  by_cases hin : 1 ≤ r ∧ r ≤ 30
  · refine ⟨r, hin.1, hin.2, ?_⟩
    obtain ⟨hlow, hhigh⟩ := hin
    interval_cases r <;> rfl
  · refine ⟨1, le_rfl, by omega, ?_⟩
    have hends : r = 0 ∨ r = 31 := by omega
    rcases hends with rfl | rfl <;> rfl

theorem widthOf_pow (ceilLog2 : ℤ → ℤ) (width : Number) :
    ∃ n, 1 ≤ n ∧ n ≤ 30 ∧ widthOf ceilLog2 width = 2 ^ n := by
  cases width with
  | finite q => exact shifted_pow _
  | infinity => exact shifted_pow 0
  | negInfinity | nan => exact shifted_pow _

theorem one_le_depthOf (depth : Number) : 1 ≤ depthOf depth := by
  cases depth with
  | finite q =>
    have hle : (1 : ℤ) ≤ max 1 (min 8 (if q = 0 then 4 else ⌊q⌋)) := le_max_left _ _
    show 1 ≤ (max 1 (min 8 (if q = 0 then 4 else ⌊q⌋))).toNat
    omega
  | infinity => exact Nat.le_add_left _ _
  | negInfinity => exact le_rfl
  | nan => exact Nat.le_add_left _ _

section
variable {ceilLog2 : ℤ → ℤ} {o : Options} {seed : BitVec 32}

theorem Covers.new {text : P → List (BitVec 16)}
    (hfew : widthOf ceilLog2 o.width * depthOf o.depth ≤ 2 ^ 31) :
    Covers text (new ceilLog2 o seed : SmallLfuSketch O) fun _ => 0 := by
  obtain ⟨n, hn, -, hwidth⟩ := widthOf_pow ceilLog2 o.width
  refine ⟨⟨?_, hfew, ?_⟩, fun _ => Nat.zero_le _, fun _ _ _ _ _ => Nat.zero_le _, fun _ _ => rfl⟩
  · show 0 < widthOf ceilLog2 o.width
    rw [hwidth]
    exact Nat.two_pow_pos n
  · have heven : 2 ∣ widthOf ceilLog2 o.width * depthOf o.depth := by
      rw [hwidth]
      exact Dvd.dvd.mul_right (dvd_pow_self 2 (by omega)) _
    show 2 * (List.replicate _ _).length = widthOf ceilLog2 o.width * depthOf o.depth
    rw [List.length_replicate]
    omega

/-- The row whose counters have no index of 32 bits. -/
theorem lost_row {s : SmallLfuSketch O} (hwidth : ∃ n, 1 ≤ n ∧ n ≤ 30 ∧ s.width = 2 ^ n)
    (hmany : 2 ^ 31 < s.width * s.depth) :
    ∃ row < s.depth, ∀ h, s.get (s.indexFor h row) = 0 := by
  obtain ⟨n, hn, hn', hwidth⟩ := hwidth
  have hpow : 2 ^ (31 - n) * s.width = 2 ^ 31 := by
    rw [hwidth, ← pow_add]
    congr 1
    omega
  have hpos : 0 < s.width := by
    rw [hwidth]
    exact Nat.two_pow_pos n
  have hsmall : s.width ≤ 2 ^ 30 := by
    rw [hwidth]
    exact Nat.pow_le_pow_right (by omega) hn'
  refine ⟨2 ^ (31 - n), ?_, fun h => ?_⟩
  · rw [← hpow, Nat.mul_comm s.width] at hmany
    exact Nat.lt_of_mul_lt_mul_right hmany
  · have hcolumn : s.column h (2 ^ (31 - n)) < s.width := column_lt hpos
    have hneg : s.indexFor h (2 ^ (31 - n)) < 0 := by
      unfold indexFor
      rw [← Nat.cast_mul, hpow]
      generalize s.column h (2 ^ (31 - n)) = column at hcolumn ⊢
      rw [Int.bmod_def]
      split <;> omega
    have hat : ¬0 ≤ s.indexFor h (2 ^ (31 - n)) / 2 := by omega
    simp only [get, nibble, if_neg hat]
    split <;> rfl

variable [DecidableEq P] [DecidableEq O] {text : P → List (BitVec 16)}
  {cardinality : List (BitVec 32) → ℚ}

omit [DecidableEq P] in
theorem raised_frame (text : P → List (BitVec 16)) (s : SmallLfuSketch O) (key : Key P O) :
    (raised text s key).width = s.width ∧ (raised text s key).depth = s.depth ∧
      (raised text s key).sampleSize = s.sampleSize ∧ (raised text s key).sample = s.sample + 1 := by
  obtain ⟨ids, nextId, hframe⟩ := hash_frame text s key
  refine ⟨?_, ?_, ?_, ?_⟩
  · show (hash text s key).1.width = s.width
    rw [hframe]
  · show (hash text s key).1.depth = s.depth
    rw [hframe]
  · show (hash text s key).1.sampleSize = s.sampleSize
    rw [hframe]
  · show (hash text s key).1.sample + 1 = s.sample + 1
    rw [hframe]

omit [DecidableEq P] in
theorem increment_shape (s : SmallLfuSketch O) (key : Key P O) :
    (increment text cardinality s key).width = s.width ∧
      (increment text cardinality s key).depth = s.depth := by
  obtain ⟨hwidth, hdepth, -⟩ := raised_frame text s key
  rw [increment_eq]
  split
  · exact ⟨hwidth, hdepth⟩
  · exact ⟨hwidth, hdepth⟩

section
variable (text : P → List (BitVec 16)) (cardinality : List (BitVec 32) → ℚ)

theorem increment_reset
    (c : Counted P O) (key : Key P O) :
    (c.sketch.sampleSize ≤ (((c.sketch.sample + 1 : ℕ) : ℚ) : WithTop ℚ) ∧
      (step text cardinality c (.increment key)).count key = min 15 (c.count key + 1) / 2 ∧
      (step text cardinality c (.increment key)).sketch.sample = 0 ∧ ∃ tuned : ℤ, 10 ≤ tuned ∧
        (step text cardinality c (.increment key)).sketch.sampleSize =
          (((min tuned (4 * c.sketch.width * c.sketch.depth) : ℤ) : ℚ) : WithTop ℚ)) ∨
      (step text cardinality c (.increment key)).count key = min 15 (c.count key + 1) := by
  obtain ⟨hwidth, hdepth, hsize, hsample⟩ := raised_frame text c.sketch key
  have hresets := raised_resets text c.sketch key
  simp only [step, increment_eq]
  by_cases hreset : (raised text c.sketch key).sampleSize ≤
      (((raised text c.sketch key).sample : ℚ) : WithTop ℚ)
  · refine Or.inl ⟨?_, ?_, ?_, ?_⟩
    · rw [hsize, hsample] at hreset
      exact hreset
    · have hmore : ¬(raised text c.sketch key).resets + 1 = c.sketch.resets := by omega
      rw [if_pos hreset]
      have hhalved := congrFun (if_neg hmore : (if (raised text c.sketch key).resets + 1 = c.sketch.resets then
        Function.update c.count key (min 15 (c.count key + 1)) else
        fun key' => Function.update c.count key (min 15 (c.count key + 1)) key' / 2) = _) key
      refine hhalved.trans ?_
      rw [Function.update_self]
    · rw [if_pos hreset]
    · rw [if_pos hreset]
      refine ⟨max 10 ⌊10 * cardinality (raised text c.sketch key).hashes + 1 / 2⌋, le_max_left _ _, ?_⟩
      rw [← hwidth, ← hdepth]
      rfl
  · right
    rw [if_neg hreset, if_pos hresets, Function.update_self]

theorem count_twice
    (ceilLog2 : ℤ → ℤ) (o : Options) (seed : BitVec 32) (key : Key P O) :
    1 ≤ (run (step text cardinality) { sketch := new ceilLog2 o seed }
      [.increment key, .increment key]).count key := by
  simp only [run_cons, run_nil]
  generalize hc : step text cardinality { sketch := new ceilLog2 o seed } (.increment key) = c
  have hfirst := increment_reset text cardinality { sketch := new ceilLog2 o seed } key
  have hsecond := increment_reset text cardinality c key
  rw [hc] at hfirst
  rcases hfirst with ⟨-, -, hsample, tuned, htuned, hsize⟩ | hcount
  · -- the first was reset, so the second is not
    obtain ⟨n, hn, -, hwidth⟩ := widthOf_pow ceilLog2 o.width
    have htwo : 2 ≤ widthOf ceilLog2 o.width := by
      rw [hwidth]
      exact Nat.le_self_pow (by omega) 2
    have hmany : 2 * 1 ≤ widthOf ceilLog2 o.width * depthOf o.depth :=
      Nat.mul_le_mul htwo (one_le_depthOf o.depth)
    have hfour : (8 : ℤ) ≤ 4 * widthOf ceilLog2 o.width * depthOf o.depth := by
      rw [mul_assoc, ← Nat.cast_mul]
      omega
    rcases hsecond with ⟨hle, -⟩ | hcount
    · rw [hsize, hsample] at hle
      have hle' : min tuned (4 * widthOf ceilLog2 o.width * depthOf o.depth : ℤ) ≤ 1 := by
        exact_mod_cast hle
      omega
    · rw [hcount]
      omega
  · have hone : c.count key = 1 := hcount
    rcases hsecond with ⟨-, hcount', -⟩ | hcount'
    · rw [hcount', hone]
      decide
    · rw [hcount', hone]
      decide

theorem step_shape
    (c : Counted P O) (e : Event P O) :
    (step text cardinality c e).sketch.width = c.sketch.width ∧
      (step text cardinality c e).sketch.depth = c.sketch.depth := by
  cases e with
  | increment key => exact increment_shape c.sketch key
  | estimate key =>
    obtain ⟨ids, nextId, hframe⟩ := hash_frame text c.sketch key
    refine ⟨?_, ?_⟩
    · show (hash text c.sketch key).1.width = c.sketch.width
      rw [hframe]
    · show (hash text c.sketch key).1.depth = c.sketch.depth
      rw [hframe]

end

omit [DecidableEq P] in
/-- A sketch that is too large estimates nothing. -/
theorem estimate_lost {s : SmallLfuSketch O} (hwidth : ∃ n, 1 ≤ n ∧ n ≤ 30 ∧ s.width = 2 ^ n)
    (hmany : 2 ^ 31 < s.width * s.depth) (key : Key P O) : (estimate text s key).2 = 0 := by
  obtain ⟨ids, nextId, hframe⟩ := hash_frame text s key
  have hwidth' : (hash text s key).1.width = s.width := by rw [hframe]
  have hdepth' : (hash text s key).1.depth = s.depth := by rw [hframe]
  rw [← hwidth', ← hdepth'] at hmany
  rw [← hwidth'] at hwidth
  obtain ⟨row, hrow, hzero⟩ := lost_row hwidth hmany
  by_contra hpos
  have hle : 1 ≤ (estimate text s key).2 := Nat.one_le_iff_ne_zero.mpr hpos
  simp only [estimate] at hle
  rw [le_foldl_min] at hle
  have hone := hle.2 row (List.mem_range.mpr hrow)
  rw [hzero] at hone
  exact absurd hone (by decide)

end

/-- No estimate is below the exact count, after any increments and estimates in between, if
and only if the counters of the sketch have indexes of 32 bits. -/
theorem never_undercounts [DecidableEq P] [DecidableEq O] (text : P → List (BitVec 16))
    (cardinality : List (BitVec 32) → ℚ) (ceilLog2 : ℤ → ℤ) (o : Options) (seed : BitVec 32) :
    (∀ (es : List (Event P O)) (key : Key P O),
      (run (step text cardinality) { sketch := new ceilLog2 o seed } es).count key ≤
        (estimate text (run (step text cardinality) { sketch := new ceilLog2 o seed } es).sketch key).2) ↔
      widthOf ceilLog2 o.width * depthOf o.depth ≤ 2 ^ 31 := by
  constructor
  · intro hall
    by_contra hmany
    have hcount := count_twice text cardinality ceilLog2 o seed (.string [] : Key P O)
    have hle := hcount.trans (hall [.increment (.string []), .increment (.string [])] (.string []))
    generalize hc : run (step text cardinality) { sketch := new ceilLog2 o seed }
      [.increment (.string [] : Key P O), .increment (.string [])] = c at hle
    have hshape : c.sketch.width = widthOf ceilLog2 o.width ∧ c.sketch.depth = depthOf o.depth := by
      rw [← hc]
      simp only [run_cons, run_nil]
      obtain ⟨hwidth, hdepth⟩ := step_shape text cardinality
        { sketch := (new ceilLog2 o seed : SmallLfuSketch O) } (.increment (.string [] : Key P O))
      obtain ⟨hwidth', hdepth'⟩ := step_shape text cardinality
        (step text cardinality { sketch := new ceilLog2 o seed } (.increment (.string [] : Key P O)))
        (.increment (.string []))
      exact ⟨hwidth'.trans hwidth, hdepth'.trans hdepth⟩
    obtain ⟨hwidth, hdepth⟩ := hshape
    rw [estimate_lost] at hle
    · exact absurd hle (by decide)
    · rw [hwidth]
      exact widthOf_pow ceilLog2 o.width
    · rw [hwidth, hdepth]
      omega
  · intro hfew es key
    have hstep : ∀ (c : Counted P O) e, Covers text c.sketch c.count →
        Covers text (step text cardinality c e).sketch (step text cardinality c e).count :=
      fun _ e hcovers => hcovers.step e
    exact (always_of_step hstep (Covers.new hfew) es).last.estimate key

/-- 2^30 columns in four rows: `(w * d) >>> 1` is 0, and nothing is counted. -/
theorem wide_sketch_undercounts :
    let ceilLog2 : ℤ → ℤ := fun x => Nat.log2 (x - 1).toNat + 1
    let o : Options := { width := .finite (2 ^ 30) }
    let c : Counted ℕ ℕ := run (step (fun _ => []) fun _ => 0) { sketch := new ceilLog2 o 0 }
      [.increment (.string [104, 111, 116])]
    ¬c.count (.string [104, 111, 116]) ≤ (estimate (fun _ => []) c.sketch (.string [104, 111, 116] : Key ℕ ℕ)).2 := by
  decide +kernel

end SmallLfuSketch

end PerformanceHelpers
