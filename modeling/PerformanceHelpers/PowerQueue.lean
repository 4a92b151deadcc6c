import PerformanceHelpers.Options
import PerformanceHelpers.RingBuffer
import PerformanceHelpers.Run

/- `PowerQueue` (`src/helpers/powerQueue.js`): a queue in a ring of slots whose number is
   a power of two.

   Capacities are 32-bit integers that are doubled by shifting, and a slot is found by
   masking, which is the remainder by a power of two. The methods are run beside those of
   a plain list (`listStep`).

   What is proved:
     1. `roundUp_eq_some` and `roundUp_eq_none` — the loop that rounds a capacity up ends on
        a power of two up to 2^30, and never ends beyond.
     2. `queue_refines` — in a run that asks for no more than 2^30 slots every call answers
        as the list's does, and the queue holds the list, its length and its weight. -/
namespace PerformanceHelpers.PowerQueue
open Function (update update_self update_of_ne)

/-- `POWER_QUEUE_INITIAL_CAPACITY`. -/
def initialCapacity : ℚ := 16

/-- `cap << 1`, on integers of 32 bits. -/
def doubled (cap : ℤ) : ℤ := (2 * cap).bmod (2 ^ 32)

/-- `while (cap < want) cap <<= 1`, for so many turns; `none` when it has not ended. -/
def powerLoop (want : ℚ) : ℕ → ℤ → Option ℤ
  | 0, _ => none
  | turns + 1, cap => if (cap : ℚ) < want then powerLoop want turns (doubled cap) else some cap

/-- The loop from `cap = 1`. After 32 turns `cap` is 0 and stays there. -/
def roundUp (want : ℚ) : Option ℤ := powerLoop want 33 1

inductive Failure where
  | throws (error : String)
  | hangs
  deriving DecidableEq, Repr

structure Queue (α : Type) where
  capacity : ℕ
  buffer : ℕ → Option α
  head : ℕ
  tail : ℕ
  size : ℕ
  totalWeight : ℤ

/-- `i & mask`. -/
def masked (i : ℤ) (capacity : ℕ) : ℕ := (i % capacity).toNat

/-- A priority, or `NaN`. -/
abbrev Priority := Option (WithBot (WithTop ℚ))

/-- `a > b`. -/
def Priority.gt : Priority → Priority → Bool
  | some a, some b => decide (b < a)
  | _, _ => false

def wholeError (name : String) (n : ℚ) : String :=
  s!"PowerQueue: `{name}` must be a whole number (received {n}). " ++
    "A fractional limit is silently rounded up by the first consumer, so it " ++
    "admits more than the number that was configured."

section
variable {α : Type}

/-- The constructor. -/
def new (capacity : Option ℚ) : Except Failure (Queue α) :=
  match assertLimitRequired capacity "initialCapacity" "PowerQueue" 0 initialCapacity with
  | .error e => .error (.throws e)
  | .ok requested =>
    match roundUp (max 2 requested) with
    | none => .error .hangs
    | some cap => .ok ⟨cap.toNat, fun _ => none, 0, 0, 0, 0⟩

/-- A buffer of `cap` slots with the items from its first slot on. -/
def relaid (q : Queue α) (cap : ℕ) : Queue α :=
  { q with
    capacity := cap
    buffer := fun i => if i < q.size then q.buffer (masked (q.head + i) q.capacity) else none
    head := 0
    tail := masked q.size cap }

/-- `_grow`. Doubling 2^30 makes a negative length. -/
def grow (q : Queue α) : Except Failure (Queue α) :=
  if doubled q.capacity < 0 then .error (.throws "RangeError: Invalid array length")
  else .ok (relaid q (doubled q.capacity).toNat)

def grown {β : Type} (q : Queue α) (r : Except Failure (Queue α))
    (rest : Queue α → Queue α × Except Failure β) : Queue α × Except Failure β :=
  match r with
  | .error e => (q, .error e)
  | .ok q => rest q

/-- `while (this._capacity < need) this._grow()`, which leaves what has grown when it throws.
A capacity is doubled at most 31 times before. -/
def growTo (need : ℕ) : ℕ → Queue α → Queue α × Except Failure Unit
  | 0, q => (q, .ok ())
  | turns + 1, q =>
    if q.capacity < need then grown q (grow q) (growTo need turns) else (q, .ok ())

def writeBlock (buffer : ℕ → Option α) (start : ℕ) (items : List α) : ℕ → Option α :=
  fun i => if start ≤ i ∧ i < start + items.length then items[i - start]? else buffer i

/-- The blocks of `pushMany` and `fill`: up to the last slot, and on from the first. -/
def writeBlocks (capacity : ℕ) : ℕ → (ℕ → Option α) → ℕ → List α → (ℕ → Option α) × ℕ
  | 0, buffer, tail, _ => (buffer, tail)
  | turns + 1, buffer, tail, items =>
    if items.isEmpty then (buffer, tail)
    else
      let block := min items.length (capacity - tail)
      writeBlocks capacity turns (writeBlock buffer tail (items.take block))
        (masked (tail + block) capacity) (items.drop block)

variable (itemWeight : α → ℤ)

inductive Answer (α : Type) where
  | length (n : ℕ)
  | item (item : Option α)
  | items (items : List (Option α))
  | done
  deriving DecidableEq

abbrev Outcome (α : Type) := Except Failure (Answer α)

def push (q : Queue α) (item : α) : Queue α × Outcome α :=
  grown q (if q.size = q.capacity then grow q else .ok q) fun q =>
    let q := { q with
      buffer := Function.update q.buffer q.tail (some item)
      tail := masked (q.tail + 1) q.capacity
      size := q.size + 1
      totalWeight := q.totalWeight + itemWeight item }
    (q, .ok (.length q.size))

def unshift (q : Queue α) (item : α) : Queue α × Outcome α :=
  grown q (if q.size = q.capacity then grow q else .ok q) fun q =>
    let head := masked (q.head - 1) q.capacity
    let q := { q with
      buffer := Function.update q.buffer head (some item)
      head := head
      size := q.size + 1
      totalWeight := q.totalWeight + itemWeight item }
    (q, .ok (.length q.size))

/-- What `pushMany` and `fill` have in common, once there are items. -/
def appendBlocks (q : Queue α) (items : List α) (weight : ℤ) : Queue α × Outcome α :=
  match growTo (q.size + items.length) 32 q with
  | (q, .error e) => (q, .error e)
  | (q, .ok ()) =>
    let r := writeBlocks q.capacity items.length q.buffer q.tail items
    let q := { q with
      buffer := r.1, tail := r.2
      size := q.size + items.length
      totalWeight := q.totalWeight + weight }
    (q, .ok (.length q.size))

def pushMany (q : Queue α) (items : List α) : Queue α × Outcome α :=
  if items.isEmpty then (q, .ok (.length q.size))
  else appendBlocks q items (items.map itemWeight).sum

/-- The count of `fill`, which is a whole number. -/
def assertFill (count : ℚ) : Except Failure ℕ :=
  if count.den ≠ 1 then .error (.throws (wholeError "count" count))
  else match assertLimitRequired (some count) "count" "PowerQueue" 0 0 with
    | .error e => .error (.throws e)
    | .ok n => .ok n.num.toNat

/-- `fill`: the same item over and over, weighed once. -/
def fill (q : Queue α) (item : α) (count : ℚ) : Queue α × Outcome α :=
  match assertFill count with
  | .error e => (q, .error e)
  | .ok n =>
    if n = 0 then (q, .ok (.length q.size))
    else appendBlocks q (List.replicate n item) (itemWeight item * n)

def unshiftMany (q : Queue α) (items : List α) : Queue α × Outcome α :=
  if items.isEmpty then (q, .ok (.length q.size))
  else
    match growTo (q.size + items.length) 32 q with
    | (q, .error e) => (q, .error e)
    | (q, .ok ()) =>
      let start := masked (q.head - items.length) q.capacity
      let q := { q with
        buffer := items.zipIdx.foldl
          (fun b p => Function.update b (masked (start + p.2) q.capacity) (some p.1)) q.buffer
        head := start
        size := q.size + items.length
        totalWeight := q.totalWeight + (items.map itemWeight).sum }
      (q, .ok (.length q.size))

def weightOf (item : Option α) : ℤ := item.elim 1 itemWeight

def shift (q : Queue α) : Queue α × Outcome α :=
  if q.size = 0 then (q, .ok (.item none))
  else
    let v := q.buffer q.head
    ({ q with
        buffer := Function.update q.buffer q.head none
        head := masked (q.head + 1) q.capacity
        size := q.size - 1
        totalWeight := q.totalWeight - weightOf itemWeight v }, .ok (.item v))

/-- `removeAt`: the items behind it move forward by one slot, in turn. -/
def removeAt (q : Queue α) (index : ℤ) : Queue α × Outcome α :=
  if index < 0 ∨ q.size ≤ index then (q, .ok (.item none))
  else
    let k := index.toNat
    let removed := q.buffer (masked (q.head + k) q.capacity)
    let buffer := (List.range' k (q.size - 1 - k)).foldl (fun b (i : ℕ) =>
      Function.update b (masked (q.head + i) q.capacity) (b (masked (q.head + i + 1) q.capacity)))
      q.buffer
    let tail := masked (q.head + q.size - 1) q.capacity
    ({ q with
        buffer := Function.update buffer tail none
        tail
        size := q.size - 1
        totalWeight := q.totalWeight - weightOf itemWeight removed }, .ok (.item removed))

def bestOf (priorityFn : Option α → Priority) (acc : ℕ × Priority) (p : Option α × ℕ) :
    ℕ × Priority :=
  if (priorityFn p.1).gt acc.2 then (p.2, priorityFn p.1) else acc

/-- The scan of `shiftHighestPriority`. -/
def bestIndex (priorityFn : Option α → Priority) : List (Option α) → ℕ
  | [] => 0
  | item :: items => ((items.zipIdx 1).foldl (bestOf priorityFn) (0, priorityFn item)).1

/-- The items, read from the head on (`[Symbol.iterator]`, `values`, `toArray`). -/
def toArray (q : Queue α) : List (Option α) :=
  (List.range q.size).map fun (i : ℕ) => q.buffer (masked (q.head + i) q.capacity)

def shiftHighestPriority (q : Queue α) (priorityFn : Option α → Priority) : Queue α × Outcome α :=
  if q.size = 0 then (q, .ok (.item none))
  else removeAt itemWeight q (bestIndex priorityFn (toArray q))

def shrink (q : Queue α) (minimum : Option ℚ) : Queue α × Outcome α :=
  match assertLimitRequired minimum "minimum" "PowerQueue" 0 initialCapacity with
  | .error e => (q, .error (.throws e))
  | .ok requested =>
    match roundUp (max 2 (max requested q.size)) with
    | none => (q, .error .hangs)
    | some cap => (if (q.capacity : ℤ) ≤ cap then q else relaid q cap.toNat, .ok .done)

def clear (q : Queue α) : Queue α × Outcome α :=
  if q.size = 0 then (q, .ok .done)
  else
    ({ q with
        buffer := (List.range q.size).foldl
          (fun b (i : ℕ) => Function.update b (masked (q.head + i) q.capacity) none) q.buffer
        head := 0, tail := 0, size := 0, totalWeight := 0 }, .ok .done)

/-- `drain`, run to its end: one `shift` after the other. -/
def drainLoop : ℕ → Queue α → List (Option α) → Queue α × List (Option α)
  | 0, q, items => (q, items)
  | turns + 1, q, items =>
    if q.size = 0 then (q, items)
    else drainLoop turns (shift itemWeight q).1 (items ++ [q.buffer q.head])

/-- The calls of a queue. -/
inductive Event (α : Type) where
  | push (item : α)
  | pushMany (items : List α)
  | fill (item : α) (count : ℚ)
  | unshift (item : α)
  | unshiftMany (items : List α)
  | shift
  | peek
  | removeAt (index : ℤ)
  | shiftHighestPriority (priorityFn : Option α → Priority)
  | shrink (minimum : Option ℚ)
  | clear
  | drain
  | toArray

def step (q : Queue α) : Event α → Queue α × Outcome α
  | .push item => push itemWeight q item
  | .pushMany items => pushMany itemWeight q items
  | .fill item count => fill itemWeight q item count
  | .unshift item => unshift itemWeight q item
  | .unshiftMany items => unshiftMany itemWeight q items
  | .shift => shift itemWeight q
  | .peek => (q, .ok (.item (if q.size = 0 then none else q.buffer q.head)))
  | .removeAt index => removeAt itemWeight q index
  | .shiftHighestPriority priorityFn => shiftHighestPriority itemWeight q priorityFn
  | .shrink minimum => shrink q minimum
  | .clear => clear q
  | .drain =>
    let r := drainLoop itemWeight q.size q []
    (r.1, .ok (.items r.2))
  | .toArray => (q, .ok (.items (toArray q)))

end

/-! ## Capacities -/

theorem doubled_power {k : ℕ} (hk : k < 30) : doubled (2 ^ k : ℕ) = (2 ^ (k + 1) : ℕ) := by
  have hle : 2 ^ k ≤ 2 ^ 29 := Nat.pow_le_pow_right (by omega) (by omega)
  have hsucc : 2 ^ (k + 1) = 2 * 2 ^ k := by
    rw [Nat.pow_succ]
    omega
  rw [hsucc]
  generalize 2 ^ k = n at hle
  unfold doubled
  rw [Int.bmod_def]
  push_cast
  split <;> omega

theorem powerLoop_of_le {want : ℚ} {cap : ℤ} (turns : ℕ) (h : want ≤ cap) :
    powerLoop want (turns + 1) cap = some cap := by
  rw [powerLoop, if_neg (not_lt.mpr h)]

theorem powerLoop_zero {want : ℚ} (hwant : 0 < want) (turns : ℕ) : powerLoop want turns 0 = none := by
  induction turns with
  | zero => rfl
  | succ turns ih =>
    rw [powerLoop, if_pos (by simpa using hwant)]
    exact ih

/-- Beyond 2^30 the loop is at 0 after two more turns, and goes on. -/
theorem powerLoop_top {want : ℚ} (hwant : 2 ^ 30 < want) (turns : ℕ) :
    powerLoop want turns (2 ^ 30 : ℕ) = none := by
  have hpos : 0 < want := lt_trans (by norm_num) hwant
  have htop : doubled (2 ^ 30 : ℕ) = -2 ^ 31 := by decide +kernel
  have hwrap : doubled (-2 ^ 31) = 0 := by decide +kernel
  cases turns with
  | zero => rfl
  | succ turns =>
    rw [powerLoop, if_pos (by push_cast; exact hwant), htop]
    cases turns with
    | zero => rfl
    | succ turns =>
      rw [powerLoop, if_pos (lt_trans (by norm_num) hpos), hwrap]
      exact powerLoop_zero hpos turns

/-- From a power of two on, the loop ends at one that is large enough, or never. -/
theorem powerLoop_spec {want : ℚ} {k : ℕ} (turns : ℕ) (hk : k ≤ 30) :
    (2 ^ 30 < want → powerLoop want turns (2 ^ k : ℕ) = none) ∧
    (want ≤ 2 ^ 30 → 30 < turns + k → ∃ m, k ≤ m ∧ m ≤ 30 ∧ want ≤ 2 ^ m ∧
      powerLoop want turns (2 ^ k : ℕ) = some (2 ^ m : ℕ)) := by
  induction turns generalizing k with
  | zero => exact ⟨fun _ => rfl, fun _ hturns => by omega⟩
  | succ turns ih =>
    rcases Nat.lt_or_eq_of_le hk with hlt | rfl
    · obtain ⟨hnone, hsome⟩ := ih (k := k + 1) (by omega)
      rw [powerLoop, doubled_power hlt]
      constructor
      · intro hwant
        rw [hnone hwant]
        have hle : (2 ^ k : ℚ) ≤ 2 ^ 30 := pow_le_pow_right₀ (by norm_num) hk
        rw [if_pos (by push_cast; exact lt_of_le_of_lt hle hwant)]
      · intro hwant hturns
        split
        · obtain ⟨m, hm, hm30, hle, heq⟩ := hsome hwant (by omega)
          exact ⟨m, by omega, hm30, hle, heq⟩
        · next hge =>
          push_cast at hge
          exact ⟨k, le_rfl, hk, not_lt.mp hge, rfl⟩
    · exact ⟨fun hwant => powerLoop_top hwant _, fun hwant _ => ⟨30, le_rfl, le_rfl, hwant,
        powerLoop_of_le turns (by push_cast; exact hwant)⟩⟩

theorem roundUp_eq_some {want : ℚ} (hwant : want ≤ 2 ^ 30) :
    ∃ m ≤ 30, want ≤ 2 ^ m ∧ roundUp want = some (2 ^ m : ℕ) := by
  obtain ⟨m, -, hm, hle, heq⟩ := (powerLoop_spec 33 (Nat.zero_le 30)).2 hwant (by omega)
  exact ⟨m, hm, hle, heq⟩

/-- Beyond, the loop does not end, however long it runs. -/
theorem roundUp_eq_none {want : ℚ} (hwant : 2 ^ 30 < want) (turns : ℕ) : powerLoop want turns 1 = none :=
  (powerLoop_spec _ (Nat.zero_le 30)).1 hwant

theorem masked_nat (i capacity : ℕ) : masked i capacity = i % capacity := by
  unfold masked
  omega

/-- Going back `n` slots and forth again. -/
theorem masked_back {capacity : ℕ} (hpos : 0 < capacity) (head n i : ℕ) :
    (masked (head - n) capacity + (n + i)) % capacity = (head + i) % capacity := by
  have hmasked : ((masked (head - n) capacity : ℕ) : ℤ) = (head - n : ℤ) % capacity :=
    Int.toNat_of_nonneg (Int.emod_nonneg _ (by omega))
  have hcast : (((masked (head - n) capacity + (n + i)) % capacity : ℕ) : ℤ) =
      ((head + i) % capacity : ℕ) := by
    push_cast
    rw [hmasked, Int.emod_add_emod]
    congr 1
    omega
  exact_mod_cast hcast

theorem masked_lt {capacity : ℕ} (hpos : 0 < capacity) (i : ℤ) : masked i capacity < capacity := by
  have hlt := Int.emod_lt_of_pos i (Int.natCast_pos.mpr hpos)
  have hnonneg := Int.emod_nonneg i (Int.natCast_ne_zero.mpr hpos.ne')
  unfold masked
  omega

/-! ## The list a queue holds -/

variable {α : Type} {itemWeight : α → ℤ} {q q' : Queue α} {xs ys : List α} {x : α}

/-- The queue holds this list. -/
structure Holds (itemWeight : α → ℤ) (q : Queue α) (xs : List α) : Prop where
  capacity : ∃ k ≤ 30, q.capacity = 2 ^ k
  head : q.head < q.capacity
  tail : q.tail = (q.head + q.size) % q.capacity
  size : q.size = xs.length
  laid : Ring.Laid q.buffer q.capacity q.head xs
  weight : q.totalWeight = (xs.map itemWeight).sum

namespace Holds

theorem pos (h : Holds itemWeight q xs) : 0 < q.capacity := Nat.zero_lt_of_lt h.head

theorem new {capacity : Option ℚ} (hnew : new capacity = .ok q) : Holds itemWeight q [] := by
  unfold PowerQueue.new at hnew
  split at hnew
  · cases hnew
  · next requested hok =>
    by_cases hwant : max 2 requested ≤ 2 ^ 30
    · obtain ⟨m, hm, -, hround⟩ := roundUp_eq_some hwant
      rw [hround] at hnew
      obtain rfl := Except.ok.inj hnew
      exact ⟨⟨m, hm, rfl⟩, Nat.two_pow_pos m, by simp, rfl, Ring.laid_nil, rfl⟩
    · rw [show roundUp (max 2 requested) = none from roundUp_eq_none (not_le.mp hwant) 33] at hnew
      cases hnew

section
variable (h : Holds itemWeight q xs)
include h

theorem relaid {k : ℕ} (hk : k ≤ 30) (hfits : q.size ≤ 2 ^ k) :
    Holds itemWeight (relaid q (2 ^ k)) xs := by
  refine ⟨⟨k, hk, rfl⟩, Nat.two_pow_pos k, ?_, h.size, ?_, h.weight⟩
  · simp only [PowerQueue.relaid, masked_nat, Nat.zero_add]
  · refine h.laid.copy (by rwa [← h.size]) fun i hi => ?_
    rw [← h.size] at hi
    simp only [PowerQueue.relaid, if_pos hi]
    exact_mod_cast congrArg q.buffer (masked_nat (q.head + i) q.capacity)

theorem grow (hroom : q.capacity < 2 ^ 30) :
    ∃ q', grow q = .ok q' ∧ Holds itemWeight q' xs ∧ q'.capacity = 2 * q.capacity ∧ q'.size = q.size := by
  obtain ⟨k, hk, hcap⟩ := h.capacity
  have hlt : k < 30 := by
    rw [hcap] at hroom
    exact (Nat.pow_lt_pow_iff_right (by omega)).mp hroom
  have hfits := h.laid.fits
  have hdoubled : doubled q.capacity = (2 ^ (k + 1) : ℕ) := by rw [hcap, doubled_power hlt]
  have hsucc : 2 ^ (k + 1) = 2 * q.capacity := by rw [hcap, Nat.pow_succ, Nat.mul_comm]
  unfold PowerQueue.grow
  rw [hdoubled, if_neg (by omega)]
  refine ⟨_, rfl, ?_, hsucc, rfl⟩
  exact h.relaid hlt (by rw [hsucc, h.size]; omega)

/-- The capacity is doubled until there is room. -/
theorem growTo {need : ℕ} (hneed : need ≤ 2 ^ 30) (turns : ℕ)
    (hturns : need ≤ 2 ^ turns * q.capacity) : ∃ q', growTo need turns q = (q', .ok ()) ∧
      Holds itemWeight q' xs ∧ need ≤ q'.capacity := by
  induction turns generalizing q with
  | zero => exact ⟨q, rfl, h, by simpa using hturns⟩
  | succ turns ih =>
    rw [PowerQueue.growTo]
    by_cases hlt : q.capacity < need
    · obtain ⟨q', hgrow, hq', hcap, -⟩ := h.grow (Nat.lt_of_lt_of_le hlt hneed)
      rw [if_pos hlt, hgrow, grown]
      refine ih hq' ?_
      rw [hcap, ← Nat.mul_assoc, ← Nat.pow_succ]
      exact hturns
    · rw [if_neg hlt]
      exact ⟨q, rfl, h, Nat.not_lt.mp hlt⟩

theorem room (need : ℕ) (hneed : need ≤ 2 ^ 30) :
    ∃ q', PowerQueue.growTo need 32 q = (q', .ok ()) ∧ Holds itemWeight q' xs ∧ need ≤ q'.capacity := by
  have hpow : 2 ^ 30 ≤ 2 ^ 32 := Nat.pow_le_pow_right (by omega) (by omega)
  exact h.growTo hneed 32 (Nat.le_trans hneed (Nat.le_trans hpow (Nat.le_mul_of_pos_right _ h.pos)))

theorem roomForOne (hsize : q.size < 2 ^ 30) :
    ∃ q', (if q.size = q.capacity then PowerQueue.grow q else .ok q) = .ok q' ∧
      Holds itemWeight q' xs ∧ q'.size < q'.capacity := by
  have hfits := h.laid.fits
  rw [← h.size] at hfits
  split
  · next heq =>
    obtain ⟨q', hgrow, hq', hcap, hsame⟩ := h.grow (by omega)
    exact ⟨q', hgrow, hq', by have := h.pos; omega⟩
  · next hne => exact ⟨q, rfl, h, by omega⟩

end

end Holds

/-! ## The methods -/

def Does (itemWeight : α → ℤ) (r : Queue α × Outcome α) (answer : Answer α) (xs : List α) : Prop :=
  r.2 = .ok answer ∧ Holds itemWeight r.1 xs

theorem Holds.push (h : Holds itemWeight q xs) (hsize : xs.length < 2 ^ 30) :
    Does itemWeight (push itemWeight q x) (.length (xs ++ [x]).length) (xs ++ [x]) := by
  obtain ⟨r, hroom, hr, hfree⟩ := h.roomForOne (by rwa [h.size])
  rw [PowerQueue.push, hroom, grown]
  have hlaid := hr.laid.concat (x := x) (by rwa [← hr.size])
  rw [← hr.size, ← hr.tail] at hlaid
  refine ⟨by simp [hr.size], hr.capacity, hr.head, ?_, by simp [hr.size], hlaid, by simp [hr.weight]⟩
  change masked (r.tail + 1) r.capacity = (r.head + (r.size + 1)) % r.capacity
  rw [← Nat.cast_one, ← Nat.cast_add, masked_nat, hr.tail, Nat.mod_add_mod, Nat.add_assoc]

theorem Holds.unshift (h : Holds itemWeight q xs) (hsize : xs.length < 2 ^ 30) :
    Does itemWeight (unshift itemWeight q x) (.length (x :: xs).length) (x :: xs) := by
  obtain ⟨r, hroom, hr, hfree⟩ := h.roomForOne (by rwa [h.size])
  rw [PowerQueue.unshift, hroom, grown]
  have hback := masked_back hr.pos r.head 1
  rw [Nat.cast_one] at hback
  have hlt := masked_lt hr.pos (r.head - 1)
  have hlaid := hr.laid.cons (x := x) (by rwa [← hr.size]) hback
  rw [Nat.mod_eq_of_lt hlt] at hlaid
  refine ⟨by simp [hr.size], hr.capacity, hlt, ?_, by simp [hr.size], hlaid, ?_⟩
  · change r.tail = (masked (r.head - 1) r.capacity + (r.size + 1)) % r.capacity
    rw [Nat.add_comm r.size, hback, hr.tail]
  · simp [hr.weight, add_comm]

/-! Blocks -/

theorem writeBlocks_spec {capacity : ℕ} (ys : List α) (tail : ℕ) (hpos : 0 < capacity) (htail : tail < capacity)
    (buffer : ℕ → Option α) (hfits : ys.length ≤ capacity) (turns : ℕ) (hturns : ys.length ≤ turns) :
    (writeBlocks capacity turns buffer tail ys).2 = (tail + ys.length) % capacity ∧
    (∀ i < ys.length, (writeBlocks capacity turns buffer tail ys).1 ((tail + i) % capacity) = ys[i]?) ∧
    ∀ i, ys.length ≤ i → i < capacity →
      (writeBlocks capacity turns buffer tail ys).1 ((tail + i) % capacity) = buffer ((tail + i) % capacity) := by
  induction turns generalizing buffer tail ys with
  | zero =>
    obtain rfl := List.length_eq_zero_iff.mp (Nat.le_zero.mp hturns)
    exact ⟨by simp [writeBlocks, Nat.mod_eq_of_lt htail], by simp, fun _ _ _ => rfl⟩
  | succ turns ih =>
    by_cases hnil : ys = []
    · subst hnil
      exact ⟨by simp [writeBlocks, Nat.mod_eq_of_lt htail], by simp, fun _ _ _ => by simp [writeBlocks]⟩
    have hlength := List.length_pos_of_ne_nil hnil
    have hunfold : writeBlocks capacity (turns + 1) buffer tail ys =
        writeBlocks capacity turns (writeBlock buffer tail (ys.take (min ys.length (capacity - tail))))
          ((tail + min ys.length (capacity - tail)) % capacity) (ys.drop (min ys.length (capacity - tail))) := by
      rw [writeBlocks, if_neg (by simpa using hnil)]
      exact_mod_cast congrArg (writeBlocks capacity turns _ · _) (masked_nat _ _)
    rw [hunfold]
    -- the block reaches to the end of the items, or of the ring
    generalize hblock : min ys.length (capacity - tail) = n
    have hn : n ≤ ys.length ∧ 0 < n ∧ tail + n ≤ capacity := by omega
    obtain ⟨htail', hnew, hold⟩ := ih (ys.drop n) ((tail + n) % capacity) (Nat.mod_lt _ hpos)
      (writeBlock buffer tail (ys.take n)) (by simp; omega) (by simp; omega)
    have hmove : ∀ i, ((tail + n) % capacity + i) % capacity = (tail + (n + i)) % capacity := by
      intro i
      rw [Nat.mod_add_mod, Nat.add_assoc]
    have hwritten : ∀ i < n, writeBlock buffer tail (ys.take n) ((tail + i) % capacity) = ys[i]? := by
      intro i hi
      rw [Nat.mod_eq_of_lt (by omega)]
      simp [writeBlock, show i < min n ys.length by omega]
    have hkept : ∀ i, n ≤ i → i < capacity →
        writeBlock buffer tail (ys.take n) ((tail + i) % capacity) = buffer ((tail + i) % capacity) := by
      intro i hi hcap
      have hslot : ¬(tail ≤ (tail + i) % capacity ∧ (tail + i) % capacity < tail + (ys.take n).length) := by
        rw [List.length_take]
        by_cases hwrap : tail + i < capacity
        · rw [Nat.mod_eq_of_lt hwrap]
          omega
        · rw [Nat.mod_eq_sub_mod (by omega), Nat.mod_eq_of_lt (by omega)]
          omega
      simp only [writeBlock, if_neg hslot]
    rw [List.length_drop] at htail' hnew hold
    refine ⟨?_, fun i hi => ?_, fun i hi hcap => ?_⟩
    · rw [htail', hmove]
      congr 2
      omega
    · by_cases hin : i < n
      · have hlast := hold (capacity - n + i) (by omega) (by omega)
        rw [hmove, show tail + (n + (capacity - n + i)) = tail + i + capacity by omega, Nat.add_mod_right] at hlast
        rw [hlast, hwritten i hin]
      · have := hnew (i - n) (by omega)
        rwa [hmove, List.getElem?_drop, show n + (i - n) = i by omega] at this
    · have := hold (i - n) (by omega) (by omega)
      rw [hmove, show n + (i - n) = i by omega] at this
      rw [this, hkept i (by omega) hcap]

theorem Holds.appendBlocks {w : ℤ} (h : Holds itemWeight q xs) (hsize : xs.length + ys.length ≤ 2 ^ 30)
    (hw : w = (ys.map itemWeight).sum) :
    Does itemWeight (appendBlocks q ys w) (.length (xs ++ ys).length) (xs ++ ys) := by
  obtain ⟨r, hroom, hr, hneed⟩ := h.room (q.size + ys.length) (by rwa [h.size])
  unfold PowerQueue.appendBlocks
  rw [hroom]
  rw [h.size, ← hr.size] at hneed
  have htail : r.tail < r.capacity := by
    rw [hr.tail]
    exact Nat.mod_lt _ hr.pos
  obtain ⟨hend, hnew, hold⟩ := writeBlocks_spec ys _ hr.pos htail r.buffer (by omega) ys.length le_rfl
  have hmove : ∀ i, (r.tail + i) % r.capacity = (r.head + (xs.length + i)) % r.capacity := by
    intro i
    rw [hr.tail, hr.size, Nat.mod_add_mod, Nat.add_assoc]
  have hlaid : Ring.Laid (writeBlocks r.capacity ys.length r.buffer r.tail ys).1 r.capacity r.head
      (xs ++ ys) := by
    refine hr.laid.append (by rwa [← hr.size]) (fun i hi => ?_) fun i hi => by rw [← hmove, hnew i hi]
    -- the slots of the list are the ring's, less the ones written
    rw [← hr.size] at hi
    have hlast := hold (r.capacity - r.size + i) (by omega) (by omega)
    rwa [hmove, ← hr.size, show r.head + (r.size + (r.capacity - r.size + i)) = r.head + i + r.capacity by omega,
      Nat.add_mod_right] at hlast
  refine ⟨by simp [hr.size], hr.capacity, hr.head, ?_, by simp [hr.size], hlaid, by simp [hr.weight, hw]⟩
  change (writeBlocks r.capacity ys.length r.buffer r.tail ys).2 = (r.head + (r.size + ys.length)) % r.capacity
  rw [hend, hmove, hr.size]

theorem Holds.pushMany (h : Holds itemWeight q xs) (hsize : xs.length + ys.length ≤ 2 ^ 30) :
    Does itemWeight (pushMany itemWeight q ys) (.length (xs ++ ys).length) (xs ++ ys) := by
  unfold PowerQueue.pushMany
  split
  · next hnil =>
    obtain rfl := List.isEmpty_iff.mp hnil
    exact ⟨by simp [h.size], by simpa using h⟩
  · exact h.appendBlocks hsize rfl

theorem Holds.fill {count : ℚ} {n : ℕ} (h : Holds itemWeight q xs) (hcount : assertFill count = .ok n)
    (hsize : xs.length + n ≤ 2 ^ 30) : Does itemWeight (fill itemWeight q x count)
      (.length (xs ++ List.replicate n x).length) (xs ++ List.replicate n x) := by
  unfold PowerQueue.fill
  rw [hcount]
  dsimp only
  split
  · next hn =>
    subst hn
    exact ⟨by simp [h.size], by simpa using h⟩
  · exact h.appendBlocks (by simpa using hsize) (by simp [mul_comm])

/-- Items written in turn from a slot on. -/
theorem foldl_update_spec (ys : List α) (slot : ℕ → ℕ) (buffer : ℕ → Option α) (start : ℕ)
    (hinj : ∀ i < ys.length, ∀ j < ys.length, slot (start + i) = slot (start + j) → i = j) :
    (∀ i < ys.length, (ys.zipIdx start).foldl (fun b p => update b (slot p.2) (some p.1)) buffer
      (slot (start + i)) = ys[i]?) ∧
    ∀ j, (∀ i < ys.length, slot (start + i) ≠ j) →
      (ys.zipIdx start).foldl (fun b p => update b (slot p.2) (some p.1)) buffer j = buffer j := by
  induction ys generalizing buffer start with
  | nil => exact ⟨by simp, fun _ _ => rfl⟩
  | cons y ys ih =>
    have hshift : ∀ i, start + 1 + i = start + (i + 1) := fun i => by omega
    obtain ⟨hnew, hold⟩ := ih (update buffer (slot start) (some y)) (start + 1)
      fun i hi j hj heq => by
        rw [hshift, hshift] at heq
        have := hinj (i + 1) (by simpa using hi) (j + 1) (by simpa using hj) heq
        omega
    rw [List.zipIdx_cons, List.foldl_cons]
    refine ⟨fun i hi => ?_, fun j hj => ?_⟩
    · cases i with
      | zero =>
        rw [hold, Nat.add_zero, update_self, List.getElem?_cons_zero]
        intro i hi heq
        rw [hshift] at heq
        have := hinj (i + 1) (by simpa using hi) 0 (by simp) heq
        omega
      | succ i =>
        have := hnew i (by simpa using hi)
        rwa [hshift] at this
    · rw [hold, update_of_ne]
      · exact fun heq => hj 0 (by simp) heq.symm
      · intro i hi
        rw [hshift]
        exact hj (i + 1) (by simpa using hi)

theorem Holds.unshiftMany (h : Holds itemWeight q xs) (hsize : ys.length + xs.length ≤ 2 ^ 30) :
    Does itemWeight (unshiftMany itemWeight q ys) (.length (ys ++ xs).length) (ys ++ xs) := by
  unfold PowerQueue.unshiftMany
  split
  · next hnil =>
    obtain rfl := List.isEmpty_iff.mp hnil
    exact ⟨by simp [h.size], by simpa using h⟩
  obtain ⟨r, hroom, hr, hneed⟩ := h.room (q.size + ys.length) (by rw [h.size]; omega)
  rw [hroom]
  rw [h.size, ← hr.size] at hneed
  have hback := masked_back hr.pos r.head ys.length
  have hlt := masked_lt hr.pos (r.head - ys.length)
  dsimp only
  generalize masked (r.head - ys.length) r.capacity = start at hback hlt ⊢
  have hmasked : ∀ i : ℕ, masked (start + i) r.capacity = (start + i) % r.capacity := by
    intro i
    exact_mod_cast masked_nat (start + i) r.capacity
  have hwrite := foldl_update_spec ys (fun i => masked (start + i) r.capacity) r.buffer 0
    fun i hi j hj heq => by
      rw [Nat.zero_add, Nat.zero_add, hmasked, hmasked] at heq
      exact Ring.slot_inj (by omega) (by omega) heq
  obtain ⟨hnew, hold⟩ := hwrite
  have hlaid : Ring.Laid (ys.zipIdx.foldl (fun b p => update b (masked (start + p.2) r.capacity)
      (some p.1)) r.buffer) r.capacity start (ys ++ xs) := by
    refine hr.laid.prepend (by rw [← hr.size]; omega) hback (fun i hi => hold _ ?_) fun i hi => ?_
    · intro j hj heq
      rw [Nat.zero_add, hmasked, ← hback] at heq
      rw [← hr.size] at hi
      have := Ring.slot_inj (by omega) (by omega) heq
      omega
    · rw [← hmasked, ← hnew i hi, Nat.zero_add]
  refine ⟨by simp [hr.size, Nat.add_comm], hr.capacity, hlt, ?_, by simp [hr.size, Nat.add_comm], hlaid,
    by simp [hr.weight, add_comm]⟩
  change r.tail = (start + (r.size + ys.length)) % r.capacity
  rw [Nat.add_comm r.size, hback, hr.tail]

theorem Holds.shift (h : Holds itemWeight q xs) :
    Does itemWeight (shift itemWeight q) (.item xs.head?) xs.tail := by
  unfold PowerQueue.shift
  cases xs with
  | nil =>
    rw [if_pos (show q.size = 0 from h.size)]
    exact ⟨rfl, h⟩
  | cons x xs =>
    have hsize := h.size
    rw [List.length_cons] at hsize
    rw [if_neg (by omega)]
    have hfirst := h.laid.first
    rw [Nat.mod_eq_of_lt h.head] at hfirst
    have hrest := h.laid.rest
    rw [Nat.mod_eq_of_lt h.head, ← Ring.laid_mod] at hrest
    have hmasked : masked (q.head + 1) q.capacity = (q.head + 1) % q.capacity := by
      exact_mod_cast masked_nat (q.head + 1) q.capacity
    dsimp only
    rw [hfirst]
    refine ⟨rfl, h.capacity, masked_lt h.pos (q.head + 1), ?_, ?_, ?_, ?_⟩
    · change q.tail = (masked (q.head + 1) q.capacity + (q.size - 1)) % q.capacity
      rw [hmasked, Nat.mod_add_mod, h.tail]
      congr 1
      omega
    · change q.size - 1 = xs.length
      omega
    · change Ring.Laid _ _ (masked (q.head + 1) q.capacity) xs
      rwa [hmasked]
    · simp [weightOf, h.weight]

/-- Slots that are written from the one behind them, in turn. -/
theorem foldl_move_spec {n : ℕ} (slot : ℕ → ℕ) (buffer : ℕ → Option α) (k m : ℕ) (hm : k + m < n)
    (hinj : ∀ i < n, ∀ j < n, slot i = slot j → i = j) :
    (∀ i, k ≤ i → i < k + m → (List.range' k m).foldl
      (fun b i => update b (slot i) (b (slot (i + 1)))) buffer (slot i) = buffer (slot (i + 1))) ∧
    ∀ i < n, i < k ∨ k + m ≤ i → (List.range' k m).foldl
      (fun b i => update b (slot i) (b (slot (i + 1)))) buffer (slot i) = buffer (slot i) := by
  induction m generalizing buffer k with
  | zero => exact ⟨fun i hk hi => by omega, fun _ _ _ => rfl⟩
  | succ m ih =>
    rw [List.range'_succ, List.foldl_cons]
    obtain ⟨hmoved, hkept⟩ := ih (update buffer (slot k) (buffer (slot (k + 1)))) (k + 1) (by omega)
    have hother : ∀ i < n, i ≠ k →
        update buffer (slot k) (buffer (slot (k + 1))) (slot i) = buffer (slot i) := by
      intro i hi hne
      exact update_of_ne (fun heq => hne (hinj i hi k (by omega) heq)) _ _
    refine ⟨fun i hk hi => ?_, fun i hi hout => ?_⟩
    · rcases Nat.eq_or_lt_of_le hk with rfl | hlt
      · rw [hkept k (by omega) (by omega), update_self]
      · rw [hmoved i (by omega) (by omega), hother (i + 1) (by omega) (by omega)]
    · rw [hkept i hi (by omega), hother i hi (by omega)]

/-- `removeAt` of a list. -/
def removed (xs : List α) (index : ℤ) : Option α × List α :=
  if index < 0 ∨ xs.length ≤ index then (none, xs) else (xs[index.toNat]?, xs.eraseIdx index.toNat)

section
variable (h : Holds itemWeight q xs)
include h

theorem Holds.removeAt {index : ℤ} :
    Does itemWeight (removeAt itemWeight q index) (.item (removed xs index).1) (removed xs index).2 := by
  unfold PowerQueue.removeAt removed
  rw [h.size]
  by_cases hout : index < 0 ∨ xs.length ≤ index
  · rw [if_pos hout, if_pos hout]
    exact ⟨rfl, h⟩
  rw [if_neg hout, if_neg hout]
  obtain ⟨k, rfl⟩ := Int.eq_ofNat_of_zero_le (by omega : 0 ≤ index)
  have hk : k < xs.length := by omega
  have hfits := h.laid.fits
  have hmasked : ∀ i : ℕ, masked (q.head + i) q.capacity = (q.head + i) % q.capacity := by
    intro i
    exact_mod_cast masked_nat (q.head + i) q.capacity
  have hmasked' : ∀ i : ℕ, masked (q.head + i + 1) q.capacity = (q.head + (i + 1)) % q.capacity := by
    intro i
    exact_mod_cast masked_nat (q.head + (i + 1)) q.capacity
  have htail : masked (q.head + xs.length - 1) q.capacity = (q.head + (xs.length - 1)) % q.capacity := by
    rw [← hmasked]
    congr 1
    omega
  dsimp only
  simp only [hmasked, hmasked', htail, Int.toNat_natCast]
  have hinj : ∀ i < xs.length, ∀ j < xs.length,
      (q.head + i) % q.capacity = (q.head + j) % q.capacity → i = j := by
    intro i hi j hj heq
    exact Ring.slot_inj (by omega) (by omega) heq
  obtain ⟨hmoved, hkept⟩ := foldl_move_spec (fun i => (q.head + i) % q.capacity) q.buffer k
    (xs.length - 1 - k) (by omega) hinj
  have hlast : ∀ (b : ℕ → Option α), ∀ i < xs.length - 1,
      update b ((q.head + (xs.length - 1)) % q.capacity) none ((q.head + i) % q.capacity) =
        b ((q.head + i) % q.capacity) := by
    intro b i hi
    refine update_of_ne (fun heq => ?_) _ _
    have := hinj i (by omega) (xs.length - 1) (by omega) heq
    omega
  have hread := h.laid.slot k hk
  rw [hread]
  refine ⟨rfl, h.capacity, h.head, ?_, ?_, ?_, ?_⟩
  · rfl
  · exact (List.length_eraseIdx_of_lt hk).symm
  · refine h.laid.erase hk (fun i hi => ?_) fun i hi hi' => ?_
    · exact (hlast _ i (by omega)).trans (hkept i (by omega) (Or.inl hi))
    · exact (hlast _ i (by omega)).trans (hmoved i hi (by omega))
  · have hsum : (xs.map itemWeight).sum = itemWeight xs[k] + ((xs.eraseIdx k).map itemWeight).sum := by
      have hsplit : xs = xs.take k ++ xs[k] :: xs.drop (k + 1) := by
        rw [← List.drop_eq_getElem_cons hk, List.take_append_drop]
      conv_lhs => rw [hsplit]
      simp only [List.eraseIdx_eq_take_drop_succ, List.map_append, List.map_cons, List.sum_append,
        List.sum_cons]
      omega
    rw [List.getElem?_eq_getElem hk]
    simp only [weightOf, Option.elim_some, h.weight, hsum]
    omega

theorem Holds.toArray : toArray q = xs.map some := by
  unfold PowerQueue.toArray
  rw [h.size, ← h.laid.read]
  refine List.map_congr_left fun i _ => congrArg q.buffer ?_
  exact_mod_cast masked_nat (q.head + i) q.capacity

theorem Holds.shiftHighestPriority (priorityFn : Option α → Priority) :
    Does itemWeight (shiftHighestPriority itemWeight q priorityFn)
      (.item (removed xs (bestIndex priorityFn (xs.map some))).1)
      (removed xs (bestIndex priorityFn (xs.map some))).2 := by
  unfold PowerQueue.shiftHighestPriority
  split
  · next hempty =>
    obtain rfl := List.length_eq_zero_iff.mp (h.size.symm.trans hempty)
    exact ⟨rfl, h⟩
  · rw [h.toArray]
    exact h.removeAt

theorem Holds.clear : Does itemWeight (clear q) .done [] := by
  unfold PowerQueue.clear
  split
  · next hempty =>
    obtain rfl := List.length_eq_zero_iff.mp (h.size.symm.trans hempty)
    exact ⟨rfl, h⟩
  · exact ⟨rfl, h.capacity, h.pos, by simp, rfl, Ring.laid_nil, rfl⟩

theorem Holds.drainLoop (turns : ℕ) (hturns : xs.length ≤ turns)
    (items : List (Option α)) : Holds itemWeight (drainLoop itemWeight turns q items).1 [] ∧
      (PowerQueue.drainLoop itemWeight turns q items).2 = items ++ xs.map some := by
  induction turns generalizing q xs items with
  | zero =>
    obtain rfl := List.length_eq_zero_iff.mp (Nat.le_zero.mp hturns)
    exact ⟨h, by simp [PowerQueue.drainLoop]⟩
  | succ turns ih =>
    rw [PowerQueue.drainLoop]
    cases xs with
    | nil =>
      rw [if_pos (show q.size = 0 from h.size)]
      exact ⟨h, by simp⟩
    | cons x xs =>
      have hsize := h.size
      rw [List.length_cons] at hsize
      have hfirst := h.laid.first
      rw [Nat.mod_eq_of_lt h.head] at hfirst
      rw [if_neg (by omega), hfirst]
      obtain ⟨hheld, hitems⟩ := ih h.shift.2 (by simpa using hturns) (items ++ [some x])
      exact ⟨hheld, by rw [hitems]; simp⟩

theorem Holds.shrink {minimum : Option ℚ} {n : ℚ}
    (hmin : assertLimitRequired minimum "minimum" "PowerQueue" 0 initialCapacity = .ok n)
    (hn : n ≤ 2 ^ 30) : Does itemWeight (shrink q minimum) .done xs := by
  obtain ⟨k, hk, hcap⟩ := h.capacity
  have hfits := h.laid.fits
  have hsize : (q.size : ℚ) ≤ 2 ^ 30 := by
    have hpow : (2 : ℕ) ^ k ≤ 2 ^ 30 := Nat.pow_le_pow_right (by omega) hk
    rw [← hcap, ← h.size] at *
    exact_mod_cast Nat.le_trans hfits hpow
  have hwant : max 2 (max n q.size) ≤ (2 : ℚ) ^ 30 := max_le (by norm_num) (max_le hn hsize)
  obtain ⟨m, hm, hle, hround⟩ := roundUp_eq_some hwant
  have hroom : (q.size : ℚ) ≤ 2 ^ m := (le_max_right n _).trans ((le_max_right 2 _).trans hle)
  have hshrunk : Holds itemWeight (if (q.capacity : ℤ) ≤ (2 ^ m : ℕ) then q
      else PowerQueue.relaid q ((2 ^ m : ℕ) : ℤ).toNat) xs := by
    split
    · exact h
    · exact h.relaid hm (by exact_mod_cast hroom)
  unfold PowerQueue.shrink
  rw [hmin]
  dsimp only
  rw [hround]
  exact ⟨rfl, hshrunk⟩

/-! ## Beyond 2^30 slots -/

theorem Holds.size_le : xs.length ≤ 2 ^ 30 := by
  obtain ⟨k, hk, hcap⟩ := h.capacity
  have hpow : (2 : ℕ) ^ k ≤ 2 ^ 30 := Nat.pow_le_pow_right (by omega) hk
  exact h.laid.fits.trans (hcap ▸ hpow)

end

def Throws (itemWeight : α → ℤ) (r : Queue α × Outcome α) (xs : List α) : Prop :=
  (∃ error, r.2 = .error (.throws error)) ∧ Holds itemWeight r.1 xs

/-- Doubled to 2^30, the capacity cannot be doubled. -/
theorem Holds.growTo_throws (h : Holds itemWeight q xs) (need : ℕ) (hneed : 2 ^ 30 < need) (turns : ℕ)
    (hturns : 2 ^ 30 < 2 ^ turns * q.capacity) : ∃ q' error,
      PowerQueue.growTo need turns q = (q', .error (.throws error)) ∧ Holds itemWeight q' xs := by
  obtain ⟨k, hk, hcap⟩ := h.capacity
  have hpow : (2 : ℕ) ^ k ≤ 2 ^ 30 := Nat.pow_le_pow_right (by omega) hk
  induction turns generalizing q k with
  | zero => omega
  | succ turns ih =>
    rw [PowerQueue.growTo, if_pos (by omega)]
    by_cases hlt : q.capacity < 2 ^ 30
    · obtain ⟨q', hgrow, hq', hcap', -⟩ := h.grow hlt
      rw [hgrow, grown]
      obtain ⟨k', hk', hpow'⟩ := hq'.capacity
      refine ih hq' ?_ k' hk' hpow' (Nat.pow_le_pow_right (by omega) hk')
      rwa [hcap', ← Nat.mul_assoc, ← Nat.pow_succ]
    · have hgrow : PowerQueue.grow q = .error (.throws "RangeError: Invalid array length") := by
        rw [PowerQueue.grow, show q.capacity = 2 ^ 30 by omega]
        rfl
      rw [hgrow, grown]
      exact ⟨q, _, rfl, h⟩

theorem Holds.push_throws (h : Holds itemWeight q xs) (hsize : 2 ^ 30 ≤ xs.length) :
    Throws itemWeight (PowerQueue.push itemWeight q x) xs := by
  have hle := h.size_le
  have hfits := h.laid.fits
  obtain ⟨k, hk, hcap⟩ := h.capacity
  have hpow : (2 : ℕ) ^ k ≤ 2 ^ 30 := Nat.pow_le_pow_right (by omega) hk
  have hgrow : PowerQueue.grow q = .error (.throws "RangeError: Invalid array length") := by
    rw [PowerQueue.grow, show q.capacity = 2 ^ 30 by omega]
    rfl
  rw [PowerQueue.push, if_pos (by rw [h.size]; omega), hgrow, grown]
  exact ⟨⟨_, rfl⟩, h⟩

theorem Holds.fill_throws {count : ℚ} {n : ℕ} (h : Holds itemWeight q xs)
    (hcount : assertFill count = .ok n) (hsize : 2 ^ 30 < xs.length + n) :
    Throws itemWeight (PowerQueue.fill itemWeight q x count) xs := by
  have hle := h.size_le
  have hturns : 2 ^ 30 < 2 ^ 32 * q.capacity := by
    have := h.pos
    omega
  obtain ⟨q', error, hgrow, hq'⟩ := h.growTo_throws (q.size + n) (by rwa [h.size]) 32 hturns
  unfold PowerQueue.fill
  rw [hcount]
  dsimp only
  rw [if_neg (by omega), PowerQueue.appendBlocks, List.length_replicate, hgrow]
  exact ⟨⟨error, rfl⟩, hq'⟩

/-! ## Beside a list -/

/-- What the calls do to a plain list. -/
def listStep (xs : List α) : Event α → List α × Outcome α
  | .push item => (xs ++ [item], .ok (.length (xs ++ [item]).length))
  | .pushMany items => (xs ++ items, .ok (.length (xs ++ items).length))
  | .fill item count =>
    match assertFill count with
    | .error e => (xs, .error e)
    | .ok n => (xs ++ List.replicate n item, .ok (.length (xs ++ List.replicate n item).length))
  | .unshift item => (item :: xs, .ok (.length (item :: xs).length))
  | .unshiftMany items => (items ++ xs, .ok (.length (items ++ xs).length))
  | .shift => (xs.tail, .ok (.item xs.head?))
  | .peek => (xs, .ok (.item xs.head?))
  | .removeAt index => ((removed xs index).2, .ok (.item (removed xs index).1))
  | .shiftHighestPriority priorityFn =>
    let r := removed xs (bestIndex priorityFn (xs.map some))
    (r.2, .ok (.item r.1))
  | .shrink minimum =>
    match assertLimitRequired minimum "minimum" "PowerQueue" 0 initialCapacity with
    | .error e => (xs, .error (.throws e))
    | .ok _ => (xs, .ok .done)
  | .clear => ([], .ok .done)
  | .drain => ([], .ok (.items (xs.map some)))
  | .toArray => (xs, .ok (.items (xs.map some)))

/-- The call asks for no more than 2^30 slots. -/
def SlotsOk (q : Queue α) : Event α → Prop
  | .push _ | .unshift _ => q.size < 2 ^ 30
  | .pushMany items | .unshiftMany items => q.size + items.length ≤ 2 ^ 30
  | .fill _ count => ∀ n ∈ (assertFill count).toOption, q.size + n ≤ 2 ^ 30
  | .shrink minimum => minimum.getD initialCapacity ≤ 2 ^ 30
  | .shift | .peek | .removeAt _ | .shiftHighestPriority _ | .clear | .drain | .toArray => True

instance (q : Queue α) (ev : Event α) : Decidable (SlotsOk q ev) := by
  cases ev <;> unfold SlotsOk <;> infer_instance

/-- The queue and the list after a call. -/
def beside (itemWeight : α → ℤ) (s : Queue α × List α) (ev : Event α) : Queue α × List α :=
  ((step itemWeight s.1 ev).1, (listStep s.2 ev).1)

theorem Holds.step {ev : Event α} (h : Holds itemWeight q xs) (hok : SlotsOk q ev) :
    (step itemWeight q ev).2 = (listStep xs ev).2 ∧
      Holds itemWeight (PowerQueue.step itemWeight q ev).1 (listStep xs ev).1 := by
  cases ev with
  | push item => exact h.push (by rwa [← h.size])
  | pushMany items => exact h.pushMany (by rwa [← h.size])
  | fill item count =>
    simp only [PowerQueue.step, listStep]
    cases hcount : assertFill count with
    | error e => exact ⟨by rw [PowerQueue.fill, hcount], by rw [PowerQueue.fill, hcount]; exact h⟩
    | ok n => exact h.fill hcount (by rw [← h.size]; exact hok n (by rw [hcount]; rfl))
  | unshift item => exact h.unshift (by rwa [← h.size])
  | unshiftMany items => exact h.unshiftMany (by rw [← h.size, Nat.add_comm]; exact hok)
  | shift => exact h.shift
  | peek =>
    refine ⟨?_, h⟩
    have hshift := h.shift.1
    unfold PowerQueue.shift at hshift
    simp only [PowerQueue.step, listStep]
    split at hshift
    · next hempty => rw [if_pos hempty]; exact hshift
    · next hne => rw [if_neg hne]; exact hshift
  | removeAt index => exact h.removeAt
  | shiftHighestPriority priorityFn => exact h.shiftHighestPriority priorityFn
  | shrink minimum =>
    simp only [PowerQueue.step, listStep]
    cases hmin : assertLimitRequired minimum "minimum" "PowerQueue" 0 initialCapacity with
    | error e => exact ⟨by rw [PowerQueue.shrink, hmin], by rw [PowerQueue.shrink, hmin]; exact h⟩
    | ok n => exact h.shrink hmin (by rw [assertLimitRequired_eq hmin]; exact hok)
  | clear => exact h.clear
  | drain =>
    obtain ⟨hheld, hitems⟩ := h.drainLoop q.size h.size.ge []
    exact ⟨congrArg (fun items => Except.ok (Answer.items items)) hitems, hheld⟩
  | toArray => exact ⟨congrArg (fun items => Except.ok (Answer.items items)) h.toArray, h⟩

/-- The queue holds the list, and says so: its length, its items in order, its weight. -/
structure SameList (itemWeight : α → ℤ) (s : Queue α × List α) : Prop where
  length : s.1.size = s.2.length
  items : toArray s.1 = s.2.map some
  weight : s.1.totalWeight = (s.2.map itemWeight).sum

/-- In a run that asks for no more than 2^30 slots, a queue is a list. -/
theorem queue_refines (itemWeight : α → ℤ) {capacity : Option ℚ} {q : Queue α} (hnew : new capacity = .ok q)
    (es : List (Event α)) (hok : Meets (fun q ev => (step itemWeight q ev).1) SlotsOk q es) :
    Always (beside itemWeight) (SameList itemWeight) (q, []) es ∧
      Meets (beside itemWeight) (fun s ev => (step itemWeight s.1 ev).2 = (listStep s.2 ev).2) (q, []) es := by
  have hok' : Meets (beside itemWeight) (fun s ev => SlotsOk s.1 ev) (q, []) es :=
    Meets.of_part Prod.fst (fun _ _ => rfl) hok
  have hstart : Holds itemWeight q [] := Holds.new hnew
  have hall : Always (beside itemWeight) (fun s => Holds itemWeight s.1 s.2) (q, []) es :=
    always_of_meets (fun _ _ h hok => (h.step hok).2) hstart hok'
  exact ⟨hall.mono fun s h => ⟨h.size, h.toArray, h.weight⟩,
    hok'.imp (P := fun s => Holds itemWeight s.1 s.2) (fun _ _ h hok => (h.step hok).2)
      (fun _ _ h hok => (h.step hok).1) hstart⟩

/-- A ring of two slots grows, wraps, loses an inner item and shrinks. -/
theorem queue_refines_wrapped :
    let q : Queue ℕ := ⟨2, fun _ => none, 0, 0, 0, 0⟩
    let weight : ℕ → ℤ := fun n => n
    let es : List (Event ℕ) := [.push 1, .pushMany [2, 3], .shift, .unshiftMany [7, 8, 9], .fill 5 2,
      .removeAt 2, .unshift 6, .shiftHighestPriority fun n => n.map fun n => ((n : ℚ) : WithTop ℚ), .toArray,
      .shift, .shift, .shift, .shift, .shrink (some 1), .push 4, .drain, .fill 1 (1 / 2), .clear]
    Always (beside weight) (SameList weight) (q, []) es ∧
      Meets (beside weight) (fun s ev => (step weight s.1 ev).2 = (listStep s.2 ev).2) (q, []) es := by
  intro q weight es
  have hnew : new (some 1) = .ok q := rfl
  exact queue_refines weight hnew es (by decide +kernel)

/-- Asked to keep more than 2^30 slots, a queue never answers. -/
theorem shrink_hangs :
    new (α := ℕ) none = .ok ⟨16, fun _ => none, 0, 0, 0, 0⟩ ∧
      ¬Meets (beside fun _ : ℕ => 1) (fun s ev => (step (fun _ => 1) s.1 ev).2 = (listStep s.2 ev).2)
        (⟨16, fun _ => none, 0, 0, 0, 0⟩, []) [.shrink (some (2 ^ 30 + 1))] := by
  refine ⟨rfl, fun h => ?_⟩
  have hsame := h.1
  revert hsame
  decide +kernel

end PerformanceHelpers.PowerQueue
