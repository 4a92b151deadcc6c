import PerformanceHelpers.BinaryHeap
import PerformanceHelpers.Number
import PerformanceHelpers.Options
import PerformanceHelpers.Run

/- `PowerPriorityQueue` (`src/helpers/powerPriorityQueue.js`): a binary heap of entries, the
   best one first: the highest priority, and of one priority the oldest. The methods are run
   beside those of a plain list that is kept in this order (`listStep`).

   What is proved:
     1. `isBetter_iff` — the entries are compared as their keys are, the priority and then the
        age.
     2. `heap_refines` — every call answers as the list's does, or throws because the heap is
        as long as an array can be, and leaves the list as it was; the heap is ordered and
        holds the list's entries, each once. -/
namespace PerformanceHelpers.PriorityQueue
open Function (update update_self update_of_ne)

variable {α : Type}

/-- What is read of an item: `none` where it is `null` or `undefined`, and of its fields those
that are numbers. -/
structure Fields where
  priority : Option Number
  weight : Option Number

def itemPriority (fields : Option Fields) : ℚ :=
  match fields with
  | none => 0
  | some f =>
    match f.priority with
    | some (.finite p) => p
    | _ =>
      match f.weight with
      | some (.finite w) => w
      | _ => 0

structure Entry (α : Type) where
  item : α
  priority : ℚ
  seq : ℕ
  deriving DecidableEq

/-- `_isBetter`. Slots that hold nothing are never compared: the size is looked at first. -/
def isBetter (candidate current : Option (Entry α)) : Bool :=
  match candidate, current with
  | some a, some b =>
    if a.priority ≠ b.priority then decide (b.priority < a.priority) else decide (a.seq < b.seq)
  | some _, none => true
  | none, _ => false

structure Queue (α : Type) where
  capacity : ℕ
  /-- The slots from 1 on. -/
  heap : ℕ → Option (Entry α)
  size : ℕ
  seq : ℕ

def maxArrayLength : ℕ := 4294967295

def lengthError : String := "RangeError: Invalid array length"

/-- The constructor. -/
def new (initialCapacity : Option ℚ) : Except String (Queue α) := do
  let requested ← assertLimitRequired initialCapacity "initialCapacity" "PowerPriorityQueue" 0 16
  let cap := max 2 ⌊requested⌋.toNat
  if maxArrayLength < cap then .error lengthError
  else pure { capacity := cap, heap := fun _ => none, size := 0, seq := 0 }

/-- `_grow`: the slots are copied. -/
def grow (q : Queue α) : Except String (Queue α) :=
  let newCap := max 4 (q.capacity * 2)
  if maxArrayLength < newCap then .error lengthError else .ok { q with capacity := newCap }

variable (fields : α → Option Fields)

def put (q : Queue α) (item : α) : Queue α × Except String ℕ :=
  let entry : Entry α := ⟨item, itemPriority (fields item), q.seq⟩
  let size := q.size + 1
  let heap := BinaryHeap.siftUp isBetter (Function.update q.heap size (some entry)) size
  ({ q with heap, size, seq := q.seq + 1 }, .ok size)

def push (q : Queue α) (item : α) : Queue α × Except String ℕ :=
  match if q.capacity - 1 ≤ q.size then grow q else .ok q with
  | .error e => (q, .error e)
  | .ok q => put fields q item

def takeOut (q : Queue α) (i : ℕ) : Queue α :=
  let last := q.heap q.size
  let heap := Function.update q.heap q.size none
  { q with heap := if i ≤ q.size - 1 then Function.update heap i last else heap, size := q.size - 1 }

def shift (q : Queue α) : Queue α × Option α :=
  if q.size = 0 then (q, none)
  else
    let root := q.heap 1
    let q := takeOut q 1
    (if 0 < q.size then { q with heap := BinaryHeap.siftDown isBetter q.size q.heap 1 } else q,
      root.map Entry.item)

def popLowest (q : Queue α) : Queue α × Option α :=
  if q.size = 0 then (q, none)
  else
    let worst := BinaryHeap.worstOf isBetter q.heap q.size
    let entry := q.heap worst
    let q := takeOut q worst
    (if worst ≤ q.size then
        { q with heap := BinaryHeap.siftUp isBetter (BinaryHeap.siftDown isBetter q.size q.heap worst) worst }
      else q,
      entry.map Entry.item)

def peek (q : Queue α) : Option α := if q.size = 0 then none else (q.heap 1).map Entry.item

/-- `toArray`: the entries in the order of `_isBetter`. -/
def toArray (q : Queue α) : List (Option α) :=
  let entries := (List.range' 1 q.size).map q.heap
  (entries.mergeSort fun a b => !isBetter b a).map fun e => e.map Entry.item

/-- `clear`, and `reset`. -/
def clear (q : Queue α) : Queue α :=
  { q with
    heap := (List.range' 1 q.size).foldl (fun heap i => Function.update heap i none) q.heap
    size := 0, seq := 0 }

/-- The calls of a queue. -/
inductive Event (α : Type) where
  | push (item : α)
  | shift
  | popLowest
  | peek
  | toArray
  | clear

inductive Answer (α : Type) where
  | length (n : ℕ)
  | item (item : Option α)
  | items (items : List (Option α))
  | done
  deriving DecidableEq

def step (q : Queue α) : Event α → Queue α × Except String (Answer α)
  | .push item =>
    let r := push fields q item
    (r.1, r.2.map .length)
  | .shift => ((shift q).1, .ok (.item (shift q).2))
  | .popLowest => ((popLowest q).1, .ok (.item (popLowest q).2))
  | .peek => (q, .ok (.item (peek q)))
  | .toArray => (q, .ok (.items (toArray q)))
  | .clear => (clear q, .ok .done)

/-! ## The order of the entries -/

/-- The priority, the highest first, and then the age. -/
def key (e : Option (Entry α)) : WithTop (ℚᵒᵈ ×ₗ ℕ) :=
  e.elim ⊤ fun e => ((toLex (OrderDual.toDual e.priority, e.seq) : ℚᵒᵈ ×ₗ ℕ) : WithTop (ℚᵒᵈ ×ₗ ℕ))

theorem key_lt {a b : Entry α} :
    key (some a) < key (some b) ↔ b.priority < a.priority ∨ a.priority = b.priority ∧ a.seq < b.seq := by
  simp only [key, Option.elim_some, WithTop.coe_lt_coe]
  rw [Prod.Lex.toLex_lt_toLex]
  simp

theorem isBetter_iff (a b : Option (Entry α)) : isBetter a b = true ↔ key a < key b := by
  cases a with
  | none => simp [isBetter, key]
  | some a =>
    cases b with
    | none => simp [isBetter, key]
    | some b =>
      rw [key_lt]
      by_cases h : a.priority = b.priority
      · simp [isBetter, h]
      · simp [isBetter, h]

/-! ## The list a queue holds -/

/-- The queue holds these entries, the best first. -/
structure Holds (q : Queue α) (entries : List (Entry α)) : Prop where
  size : q.size = entries.length
  contents : BinaryHeap.contents q.size q.heap = ↑(entries.map some)
  ordered : BinaryHeap.Ordered key q.size q.heap
  sorted : entries.Pairwise fun a b => key (some a) < key (some b)
  seq : ∀ e ∈ entries, e.seq < q.seq
  priority : ∀ e ∈ entries, e.priority = itemPriority (fields e.item)

section
variable {fields} {q : Queue α} {e : Entry α} {entries rest : List (Entry α)} {i : ℕ}

theorem Holds.get (h : Holds fields q entries) (h1 : 1 ≤ i) (hi : i ≤ q.size) :
    ∃ e ∈ entries, q.heap i = some e := by
  have hmem : q.heap i ∈ BinaryHeap.contents q.size q.heap :=
    BinaryHeap.mem_contents.mpr ⟨i, h1, hi, rfl⟩
  rw [h.contents] at hmem
  obtain ⟨e, he, heq⟩ := List.mem_map.mp hmem
  exact ⟨e, he, heq.symm⟩

theorem Holds.takeOut (h : Holds fields q entries) (h1 : 1 ≤ i) (hi : i ≤ q.size) (hslot : q.heap i = some e)
    (hperm : entries.Perm (e :: rest)) :
    (takeOut q i).size + 1 = q.size ∧
      BinaryHeap.contents (takeOut q i).size (takeOut q i).heap = ↑(rest.map some) ∧
      (i ≤ (takeOut q i).size → BinaryHeap.Loose key (takeOut q i).size (takeOut q i).heap i) ∧
      ((takeOut q i).size < i → BinaryHeap.Ordered key (takeOut q i).size (takeOut q i).heap) := by
  obtain ⟨n, hn⟩ : ∃ n, q.size = n + 1 := ⟨q.size - 1, by omega⟩
  have hordered := h.ordered
  have hcontents := h.contents
  rw [hn] at hordered hcontents hi
  -- up to the new size the slots are those of a heap whose slot holds the last entry
  have hheap : ∀ k, 1 ≤ k → k ≤ n →
      (PriorityQueue.takeOut q i).heap k = update q.heap i (q.heap (n + 1)) k := by
    intro k hk1 hk
    simp only [PriorityQueue.takeOut, hn, Nat.add_sub_cancel]
    by_cases hki : k = i
    · subst hki
      rw [if_pos hk, update_self, update_self]
    · rw [update_of_ne hki]
      split
      · rw [update_of_ne hki, update_of_ne (by omega)]
      · rw [update_of_ne (by omega)]
  have hsize : (PriorityQueue.takeOut q i).size = n := by simp [PriorityQueue.takeOut, hn]
  rw [hsize]
  refine ⟨hn.symm, ?_, fun hle => ?_, fun hlt => ?_⟩
  · rw [BinaryHeap.contents_congr hheap]
    rw [BinaryHeap.contents_replace (Finset.mem_Icc.mpr ⟨h1, hi⟩), hslot,
      Multiset.coe_eq_coe.mpr (hperm.map some)] at hcontents
    exact (Multiset.cons_inj_right _).mp hcontents
  · exact (hordered.replace _ hle).congr hheap
  · refine hordered.pop.congr fun k hk1 hk => ?_
    rw [hheap k hk1 hk, update_of_ne (by omega)]

/-! ## The methods -/

theorem Holds.new {c : Option ℚ} (hnew : new c = .ok q) : Holds fields q [] := by
  obtain ⟨requested, -, h⟩ := bind_eq_ok.mp hnew
  dsimp only at h
  split at h
  · cases h
  · cases h
    refine ⟨rfl, rfl, fun j h2 hj => ?_, List.Pairwise.nil, by simp, by simp⟩
    have hj : j ≤ 0 := hj
    omega

/-- The newest entry goes after those of at least its priority. -/
theorem sorted_insert (hsorted : entries.Pairwise fun a b => key (some a) < key (some b))
    (hseq : ∀ a ∈ entries, a.seq < e.seq) :
    (entries.orderedInsert (fun a b => b.priority < a.priority) e).Pairwise
      fun a b => key (some a) < key (some b) := by
  induction entries with
  | nil => exact List.pairwise_singleton _ _
  | cons b entries ih =>
    obtain ⟨hb, hrest⟩ := List.pairwise_cons.mp hsorted
    rw [List.orderedInsert_cons]
    split
    · next hlt =>
      have heb : key (some e) < key (some b) := key_lt.mpr (Or.inl hlt)
      refine List.pairwise_cons.mpr ⟨fun a ha => ?_, hsorted⟩
      rcases List.mem_cons.mp ha with rfl | ha
      · exact heb
      · exact heb.trans (hb a ha)
    · next hge =>
      have hbe : key (some b) < key (some e) := by
        rcases (not_lt.mp hge).lt_or_eq with hlt | heq
        · exact key_lt.mpr (Or.inl hlt)
        · exact key_lt.mpr (Or.inr ⟨heq.symm, hseq b List.mem_cons_self⟩)
      refine List.pairwise_cons.mpr ⟨fun a ha => ?_, ih hrest fun a ha => hseq a (List.mem_cons_of_mem _ ha)⟩
      rcases (List.mem_orderedInsert _).mp ha with rfl | ha
      · exact hbe
      · exact hb a ha

theorem Holds.insert (h : Holds fields q entries) (item : α) :
    let entry : Entry α := ⟨item, itemPriority (fields item), q.seq⟩
    Holds fields { q with
        heap := BinaryHeap.siftUp isBetter (update q.heap (q.size + 1) (some entry)) (q.size + 1)
        size := q.size + 1, seq := q.seq + 1 }
      (entries.orderedInsert (fun a b => b.priority < a.priority) entry) := by
  intro entry
  obtain ⟨hordered, hcontents⟩ := BinaryHeap.siftUp_spec isBetter_iff (h.ordered.push (some entry))
    (by omega) le_rfl
  refine ⟨?_, ?_, hordered, ?_, ?_, ?_⟩
  · simp [List.orderedInsert_length, h.size]
  · have hperm := (List.perm_orderedInsert (fun a b : Entry α => b.priority < a.priority) entry entries).map some
    rw [hcontents, BinaryHeap.contents_succ, update_self, Multiset.coe_eq_coe.mpr hperm,
      BinaryHeap.contents_congr, h.contents]
    · rfl
    · intro k _ hk
      rw [update_of_ne (by omega)]
  · exact sorted_insert h.sorted h.seq
  · intro e he
    rcases (List.mem_orderedInsert _).mp he with rfl | he
    · exact Nat.lt_succ_self _
    · exact (h.seq e he).trans (Nat.lt_succ_self _)
  · intro e he
    rcases (List.mem_orderedInsert _).mp he with rfl | he
    · rfl
    · exact h.priority e he

/-- The best entry is in the first slot. -/
theorem Holds.first (h : Holds fields q (e :: rest)) : q.heap 1 = some e := by
  have hsize := h.size
  rw [List.length_cons] at hsize
  obtain ⟨e', he', hslot⟩ := h.get le_rfl (by omega : 1 ≤ q.size)
  obtain ⟨i, h1, hi, hi'⟩ := BinaryHeap.mem_contents.mp
    (h.contents ▸ List.mem_map_of_mem List.mem_cons_self : some e ∈ BinaryHeap.contents q.size q.heap)
  have hle := h.ordered.first h1 hi
  rw [hslot, hi'] at hle
  rcases List.mem_cons.mp he' with rfl | he'
  · exact hslot
  · exact absurd ((List.pairwise_cons.mp h.sorted).1 e' he') (not_lt.mpr hle)

/-- The scan ends on the last entry. -/
theorem Holds.worst (h : Holds fields q (rest ++ [e])) :
    1 ≤ BinaryHeap.worstOf isBetter q.heap q.size ∧ BinaryHeap.worstOf isBetter q.heap q.size ≤ q.size ∧
      q.heap (BinaryHeap.worstOf isBetter q.heap q.size) = some e := by
  have hsize := h.size
  rw [List.length_append, List.length_singleton] at hsize
  obtain ⟨h1, hle, hall⟩ := BinaryHeap.worstOf_spec isBetter_iff q.heap (by omega : 1 ≤ q.size)
  obtain ⟨e', he', hslot⟩ := h.get h1 hle
  obtain ⟨i, hi1, hi, hi'⟩ := BinaryHeap.mem_contents.mp
    (h.contents ▸ List.mem_map_of_mem (by simp) : some e ∈ BinaryHeap.contents q.size q.heap)
  have hbest := hall i hi1 hi
  rw [hslot, hi'] at hbest
  refine ⟨h1, hle, ?_⟩
  rcases List.mem_append.mp he' with he' | he'
  · exact absurd ((List.pairwise_append.mp h.sorted).2.2 e' he' e (by simp)) (not_lt.mpr hbest)
  · rw [hslot, List.mem_singleton.mp he']

section
variable (h : Holds fields q entries)
include h

theorem Holds.sub {q' : Queue α} (hsub : rest.Sublist entries)
    (hcontents : BinaryHeap.contents q'.size q'.heap = ↑(rest.map some))
    (hordered : BinaryHeap.Ordered key q'.size q'.heap) (hseq : q'.seq = q.seq) : Holds fields q' rest where
  size := by
    have hcard := congrArg Multiset.card hcontents
    simpa [BinaryHeap.contents] using hcard
  contents := hcontents
  ordered := hordered
  sorted := h.sorted.sublist hsub
  seq e he := hseq ▸ h.seq e (hsub.subset he)
  priority e he := h.priority e (hsub.subset he)

theorem Holds.shift :
    Holds fields (shift q).1 entries.tail ∧ (PriorityQueue.shift q).2 = entries.head?.map Entry.item := by
  unfold PriorityQueue.shift
  cases entries with
  | nil =>
    have hzero : q.size = 0 := h.size
    rw [if_pos hzero]
    exact ⟨h, rfl⟩
  | cons e rest =>
    have hsize := h.size
    rw [List.length_cons] at hsize
    rw [if_neg (by omega)]
    obtain ⟨hone, hcontents, hloose, hordered⟩ := h.takeOut le_rfl (by omega) h.first (List.Perm.refl _)
    refine ⟨?_, by simp only [h.first]; rfl⟩
    dsimp only
    split
    · next hpos =>
      have hready : BinaryHeap.DownReady key (PriorityQueue.takeOut q 1).size (PriorityQueue.takeOut q 1).heap 1 :=
        ⟨hloose hpos, fun h2 => by omega⟩
      obtain ⟨hsifted, hsame⟩ := BinaryHeap.siftDown_spec isBetter_iff hready le_rfl hpos
      exact h.sub (List.sublist_cons_self e rest) (hsame.trans hcontents) hsifted rfl
    · next hzero => exact h.sub (List.sublist_cons_self e rest) hcontents (hordered (by omega)) rfl

theorem Holds.popLowest :
    Holds fields (popLowest q).1 entries.dropLast ∧
      (PriorityQueue.popLowest q).2 = entries.getLast?.map Entry.item := by
  unfold PriorityQueue.popLowest
  rcases List.eq_nil_or_concat entries with rfl | ⟨rest, e, rfl⟩
  · have hzero : q.size = 0 := h.size
    rw [if_pos hzero]
    exact ⟨h, rfl⟩
  · rw [List.concat_eq_append] at *
    have hsize := h.size
    rw [List.length_append, List.length_singleton] at hsize
    rw [if_neg (by omega)]
    obtain ⟨h1, hle, hslot⟩ := h.worst
    obtain ⟨hone, hcontents, hloose, hordered⟩ := h.takeOut h1 hle hslot
      (List.perm_append_singleton e rest)
    have hsub : rest.Sublist (rest ++ [e]) := List.sublist_append_left rest [e]
    rw [List.dropLast_concat, List.getLast?_concat]
    refine ⟨?_, by simp only [hslot]⟩
    dsimp only
    split
    · next hin =>
      obtain ⟨hsifted, hsame⟩ := BinaryHeap.siftDown_siftUp isBetter_iff (hloose hin) h1 hin
      exact h.sub hsub (hsame.trans hcontents) hsifted rfl
    · next hout => exact h.sub hsub hcontents (hordered (by omega)) rfl

theorem Holds.peek : peek q = entries.head?.map Entry.item := by
  unfold PriorityQueue.peek
  cases entries with
  | nil =>
    have hzero : q.size = 0 := h.size
    rw [if_pos hzero]
    rfl
  | cons e rest =>
    have hsize := h.size
    rw [List.length_cons] at hsize
    rw [if_neg (by omega), h.first]
    rfl

end

theorem Holds.clear (q : Queue α) : Holds fields (clear q) [] := by
  refine ⟨rfl, rfl, fun j h2 hj => ?_, List.Pairwise.nil, by simp, by simp⟩
  have hj : j ≤ 0 := hj
  omega

theorem key_inj {a b : Option (Entry α)} (h : entries.Pairwise fun a b => key (some a) < key (some b))
    (ha : a ∈ entries.map some) (hb : b ∈ entries.map some) (heq : key a = key b) : a = b := by
  have hnodup : ((entries.map some).map key).Nodup := by
    rw [List.map_map]
    exact List.pairwise_map.mpr (h.imp fun hab => hab.ne)
  exact List.inj_on_of_nodup_map hnodup ha hb heq

theorem Holds.toArray (h : Holds fields q entries) : toArray q = (entries.map Entry.item).map some := by
  have hheap : ((List.range' 1 q.size).map q.heap).Perm (entries.map some) := by
    rw [← Multiset.coe_eq_coe, ← h.contents]
    rfl
  have hle : ∀ a b : Option (Entry α), (!isBetter b a) = true ↔ key a ≤ key b := by
    intro a b
    rw [Bool.not_eq_true', ← Bool.not_eq_true, isBetter_iff, not_lt]
  have hsorted : (entries.map some).Pairwise fun a b => (!isBetter b a) = true := by
    rw [List.pairwise_map]
    exact h.sorted.imp fun hab => (hle _ _).mpr hab.le
  have hmerged := @List.pairwise_mergeSort _ (fun a b : Option (Entry α) => !isBetter b a)
    (fun a b c hab hbc => (hle _ _).mpr (((hle _ _).mp hab).trans ((hle _ _).mp hbc)))
    (fun a b => by
      rw [Bool.or_eq_true, hle, hle]
      exact le_total _ _)
    ((List.range' 1 q.size).map q.heap)
  have hperm := (List.mergeSort_perm ((List.range' 1 q.size).map q.heap) fun a b => !isBetter b a).trans hheap
  have heq := hperm.eq_of_pairwise (fun a b ha hb hab hba =>
    key_inj h.sorted (hperm.subset ha) hb (le_antisymm ((hle _ _).mp hab) ((hle _ _).mp hba))) hmerged hsorted
  unfold PriorityQueue.toArray
  dsimp only
  rw [heq]
  simp

theorem Holds.push (h : Holds fields q entries) (item : α) :
    (∃ entries', Holds fields (push fields q item).1 entries' ∧
      entries'.map Entry.item = (entries.map Entry.item).orderedInsert
        (fun a b => itemPriority (fields b) < itemPriority (fields a)) item ∧
      (PriorityQueue.push fields q item).2 = .ok (entries.length + 1)) ∨
    maxArrayLength < 2 * (entries.length + 1) ∧
      PriorityQueue.push fields q item = (q, .error lengthError) := by
  have hput : ∀ q' : Queue α, Holds fields q' entries → ∃ entries', Holds fields (put fields q' item).1 entries' ∧
      entries'.map Entry.item = (entries.map Entry.item).orderedInsert
        (fun a b => itemPriority (fields b) < itemPriority (fields a)) item ∧
      (put fields q' item).2 = .ok (entries.length + 1) := by
    intro q' h'
    refine ⟨_, h'.insert item, ?_, by rw [← h'.size]; rfl⟩
    refine List.map_orderedInsert _ _ _ _ _ (fun a ha => ?_) fun a ha => ?_
    · rw [h'.priority a ha]
    · rw [h'.priority a ha]
  by_cases hfull : q.capacity - 1 ≤ q.size
  · by_cases hlong : maxArrayLength < max 4 (q.capacity * 2)
    · refine Or.inr ⟨?_, ?_⟩
      · have hsize := h.size
        unfold maxArrayLength at *
        omega
      · rw [PriorityQueue.push, if_pos hfull, grow, if_pos hlong]
    · have hgrown : Holds fields { q with capacity := max 4 (q.capacity * 2) } entries :=
        { h with }
      rw [PriorityQueue.push, if_pos hfull, grow, if_neg hlong]
      exact Or.inl (hput _ hgrown)
  · rw [PriorityQueue.push, if_neg hfull]
    exact Or.inl (hput q h)

end

/-! ## Beside a list -/

/-- What the calls do to a list that is kept in order: an item goes after those of at least its
priority. -/
def listStep (xs : List α) : Event α → List α × Answer α
  | .push item =>
    (xs.orderedInsert (fun a b => itemPriority (fields b) < itemPriority (fields a)) item,
      .length (xs.length + 1))
  | .shift => (xs.tail, .item xs.head?)
  | .popLowest => (xs.dropLast, .item xs.getLast?)
  | .peek => (xs, .item xs.head?)
  | .toArray => (xs, .items (xs.map some))
  | .clear => ([], .done)

/-- The queue and the list after a call, which throws or does what it says. -/
def beside (s : Queue α × List α) (ev : Event α) : Queue α × List α :=
  ((step fields s.1 ev).1, match (step fields s.1 ev).2 with
    | .ok _ => (listStep fields s.2 ev).1
    | .error _ => s.2)

/-- The call answers as the list's, or throws for want of a longer array. -/
def Answers (s : Queue α × List α) (ev : Event α) : Prop :=
  match (step fields s.1 ev).2 with
  | .ok answer => answer = (listStep fields s.2 ev).2
  | .error e => e = lengthError ∧ maxArrayLength < 2 * (s.2.length + 1)

/-- The queue holds the list, and says so: its length, its items in order, each in a slot of
its own. -/
structure SameList (s : Queue α × List α) : Prop where
  length : s.1.size = s.2.length
  items : toArray s.1 = s.2.map some
  slots : (BinaryHeap.contents s.1.size s.1.heap).map (Option.map Entry.item) = ↑(s.2.map some)
  sorted : s.2.Pairwise fun a b => itemPriority (fields b) ≤ itemPriority (fields a)

/-- The queue holds entries whose items are the list. -/
def Agrees (s : Queue α × List α) : Prop :=
  ∃ entries : List (Entry α), Holds fields s.1 entries ∧ entries.map Entry.item = s.2

variable {fields} in
theorem Agrees.sameList {s : Queue α × List α} (h : Agrees fields s) : SameList fields s := by
  obtain ⟨q, xs⟩ := s
  obtain ⟨entries, h, rfl⟩ := h
  refine ⟨by simpa using h.size, h.toArray, ?_, ?_⟩
  · rw [h.contents, Multiset.map_coe]
    simp
  · rw [List.pairwise_map]
    refine h.sorted.imp_of_mem fun {a b} ha hb hab => ?_
    rw [← h.priority a ha, ← h.priority b hb]
    rcases key_lt.mp hab with hlt | ⟨heq, -⟩
    · exact hlt.le
    · exact heq.ge

variable {fields} in
theorem agrees_beside {s : Queue α × List α} (h : Agrees fields s) (ev : Event α) :
    Answers fields s ev ∧ Agrees fields (beside fields s ev) := by
  obtain ⟨q, xs⟩ := s
  obtain ⟨entries, h, rfl⟩ := h
  cases ev with
  | push item =>
    rcases h.push item with ⟨entries', hheld, hitems, hok⟩ | ⟨hlong, herror⟩
    · simp only [Answers, beside, step, hok, Except.map, listStep, List.length_map]
      exact ⟨trivial, entries', hheld, hitems⟩
    · simp only [Answers, beside, step, herror, Except.map, List.length_map]
      exact ⟨⟨trivial, hlong⟩, entries, h, rfl⟩
  | shift =>
    obtain ⟨hheld, hitem⟩ := h.shift
    refine ⟨?_, entries.tail, hheld, by simp [beside, step, listStep]⟩
    simp [Answers, step, listStep, hitem]
  | popLowest =>
    obtain ⟨hheld, hitem⟩ := h.popLowest
    refine ⟨?_, entries.dropLast, hheld, by simp [beside, step, listStep]⟩
    simp [Answers, step, listStep, hitem]
  | peek => exact ⟨by simp [Answers, step, listStep, h.peek], entries, h, rfl⟩
  | toArray => exact ⟨by simp [Answers, step, listStep, h.toArray], entries, h, rfl⟩
  | clear => exact ⟨rfl, [], Holds.clear q, rfl⟩

/-- Every run of a queue is one of a list kept in order. -/
theorem heap_refines {c : Option ℚ} {q : Queue α} (hnew : new c = .ok q) (es : List (Event α)) :
    Always (beside fields) (SameList fields) (q, []) es ∧
      Meets (beside fields) (Answers fields) (q, []) es := by
  have hstart : Agrees fields (q, []) := ⟨[], Holds.new hnew, rfl⟩
  have hstep : ∀ s ev, Agrees fields s → Agrees fields (beside fields s ev) := fun _ ev h =>
    (agrees_beside h ev).2
  exact ⟨(always_of_step (P := Agrees fields) hstep hstart es).mono fun _ h => h.sameList,
    meets_of_step (P := Agrees fields) hstep (fun _ ev h => (agrees_beside h ev).1) hstart es⟩

def itself (n : ℕ) : Option Fields := some ⟨some (.finite (n / 10 : ℕ)), none⟩

/-- Entries of three priorities go in and out from both ends. -/
theorem heap_refines_bothEnds :
    let es : List (Event ℕ) := [.push 10, .push 20, .push 11, .push 30, .push 21, .push 12, .popLowest, .shift,
      .toArray, .push 22, .popLowest, .peek, .shift, .clear, .shift]
    let q : Queue ℕ := ⟨2, fun _ => none, 0, 0⟩
    Always (beside itself) (SameList itself) (q, []) es ∧ Meets (beside itself) (Answers itself) (q, []) es := by
  intro es q
  have hnew : new (some 0) = .ok q := rfl
  exact heap_refines itself hnew es

end PerformanceHelpers.PriorityQueue
