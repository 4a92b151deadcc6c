import PerformanceHelpers.PowerCache.Losses
import PerformanceHelpers.PowerCache.Routes

/- A batch against single writes.

   `setMany` has a time to live of its own, which is none, while `set` takes `defaultTTL`
   (`defaults_disagree`); and it looks a key up in Main only. Below the limits nothing else
   sets the two apart. A list is where it was but for the order, so the two leave the same
   `Flat` there; S3-FIFO puts the same entries into other queues, and what is under a key is
   compared. -/
namespace PerformanceHelpers.PowerCache
open Function (update update_self update_of_ne)

variable {K V : Type} {c c' : Cache K V} {i j : ℕ} {k : K} {v : V} {w x : ℚ}

abbrev Content (V : Type) := Option V × ℚ × ℚ

def resident (c : Cache K V) (key : K) : Option ℕ :=
  match c.policy with
  | .lru | .slru | .sieve => c.map.get key
  | .s3fifo => c.map.get key <|> c.smallMap.get key

def entryOf (c : Cache K V) (key : K) : Option (Content V) :=
  (resident c key).map fun i => (c.value i, c.weight i, c.expiresAt i)

structure Below (c : Cache K V) : Prop extends WithinLimits c where
  small : c.policy = .s3fifo → c.smallSize ≤ c.smallMaxSize

/-- There is room for an entry of weight `w` under a key, where a write finds the node
`replaced`. -/
structure RoomFor (c : Cache K V) (key : K) (w : ℚ) (replaced : Option ℕ) : Prop where
  entries : ∀ m ∈ c.maxEntries,
    (size c : ℚ) + (if replaced.isSome ∧ (resident c key).isSome then 0 else 1) ≤ m
  weight : ∀ m ∈ c.maxWeight, c.currentWeight - replaced.elim 0 c.weight + w ≤ m
  small : c.policy = .s3fifo → replaced = none → c.smallSize + 1 ≤ c.smallMaxSize

instance (c : Cache K V) (key : K) (w : ℚ) (replaced : Option ℕ) :
    Decidable (RoomFor c key w replaced) :=
  decidable_of_iff ((∀ m ∈ c.maxEntries,
      (size c : ℚ) + (if replaced.isSome ∧ (resident c key).isSome then 0 else 1) ≤ m) ∧
      (∀ m ∈ c.maxWeight, c.currentWeight - replaced.elim 0 c.weight + w ≤ m) ∧
      (c.policy = .s3fifo → replaced = none → c.smallSize + 1 ≤ c.smallMaxSize))
    ⟨fun ⟨entries, weight, small⟩ => ⟨entries, weight, small⟩,
      fun ⟨entries, weight, small⟩ => ⟨entries, weight, small⟩⟩

def heavy (g : Config K V) (weight : Option Weight) (p : K × V) : Bool :=
  g.rejectOversized && g.maxWeight.any fun m => decide (m < computeWeight g.weightFn p.2 weight)

variable [DecidableEq K]

/-- `set` of one entry of a batch. -/
def setOne (ttl : Option Ttl) (weight : Option Weight) (now : ℚ) (c : Cache K V) (p : K × V) :
    Cache K V :=
  (step c (.set p.1 p.2 ttl weight now)).1

/-- No limit is reached by `set` of this entry. -/
def SetFits (weight : Option Weight) (c : Cache K V) (p : K × V) : Prop :=
  heavy c.toConfig weight p = false →
    RoomFor c p.1 (computeWeight c.weightFn p.2 weight) (lookup c p.1)

/-- No limit is reached by this entry of `setMany`, which looks in Main only. -/
def SetManyFits (weight : Option Weight) (c : Cache K V) (p : K × V) : Prop :=
  heavy c.toConfig weight p = false →
    RoomFor c p.1 (computeWeight c.weightFn p.2 weight) (c.map.get p.1)

instance (weight : Option Weight) (c : Cache K V) (p : K × V) : Decidable (SetFits weight c p) :=
  inferInstanceAs (Decidable (_ → RoomFor c p.1 _ (lookup c p.1)))

instance (weight : Option Weight) (c : Cache K V) (p : K × V) : Decidable (SetManyFits weight c p) :=
  inferInstanceAs (Decidable (_ → RoomFor c p.1 _ (c.map.get p.1)))

/-- No limit is reached, neither by the batch nor by its entries one by one. -/
structure Unlimited (c : Cache K V) (entries : List (K × V)) (ttl : Option Ttl)
    (weight : Option Weight) (now : ℚ) : Prop where
  start : Below c
  single : Meets (setOne ttl weight now) (SetFits weight) c entries
  bulk : ∀ x ∈ (expiresAtOf (ttl.getD .never) now).toOption,
    Meets (setManyOne x weight) (SetManyFits weight) c entries

/-- The batch leaves, rejects and refuses what its entries one by one do. -/
structure BulkAgrees (c : Cache K V) (entries : List (K × V)) (ttl : Option Ttl)
    (weight : Option Weight) (now : ℚ) : Prop where
  stored : ∀ key, entryOf (step c (.setMany entries ttl weight now)).1 key =
    entryOf (run (setOne ttl weight now) c entries) key
  rejected : (step c (.setMany entries ttl weight now)).1.log =
    (run (setOne ttl weight now) c entries).log
  threw : ∀ p ∈ entries, (∃ e, (step c (.setMany entries ttl weight now)).2 = .threw e) ↔
    ∃ e, (step c (.set p.1 p.2 ttl weight now)).2 = .threw e

/-- The two give an entry the same expiry, or there is none that is stored. -/
def SameExpiry (c : Cache K V) (entries : List (K × V)) (ttl : Option Ttl)
    (weight : Option Weight) (now : ℚ) : Prop :=
  expiresAtOf (ttl.getD c.defaultTTL) now = expiresAtOf (ttl.getD .never) now ∨ entries = [] ∨
    c.defaultTTL ≠ .invalid ∧ ∀ p ∈ entries, heavy c.toConfig weight p = true

/-! ## Below the limits -/

theorem evictIfNeeded_below (h : Below c) :
    ∃ candidate, evictIfNeeded c = { c with evictionCandidate := candidate } := by
  have hsettle : ∃ candidate, settleCandidate c = { c with evictionCandidate := candidate } := by
    unfold settleCandidate
    split
    · exact ⟨_, rfl⟩
    · exact ⟨c.evictionCandidate, rfl⟩
  have hover : overLimit c (size c) = false := overLimit_iff.mpr ⟨h.maxEntries, h.maxWeight⟩
  cases hp : c.policy with
  | s3fifo =>
    have hsize : ((size c : ℤ) : ℚ) = c.map.size + c.smallSize := by
      simp [size, hp]
    have hsmall : ¬c.smallMaxSize < c.smallSize := (h.small hp).not_gt
    have hdemote : ∀ turns, demoteSmall turns c = c := by
      intro turns
      cases turns with
      | zero => rfl
      | succ turns => rw [demoteSmall, if_neg hsmall]
    have hevict : ∀ turns, evictMain turns c = c := by
      intro turns
      cases turns with
      | zero => rfl
      | succ turns => rw [evictMain, ← hsize, hover]; rfl
    simp only [evictIfNeeded, hp, s3fifoEvict, hdemote, hevict]
    exact hsettle
  | sieve =>
    have hsize : ((size c : ℤ) : ℚ) = c.map.size := by
      simp [size, hp]
    refine ⟨c.evictionCandidate, ?_⟩
    simp only [evictIfNeeded, hp]
    cases 2 * c.nextNode with
    | zero => rfl
    | succ turns => rw [sieveEvict, ← hsize, hover]; rfl
  | lru | slru =>
    have hsize : ((size c : ℤ) : ℚ) = c.map.size := by
      simp [size, hp]
    have hloop : evictLoop c.nextNode c = c := by
      cases c.nextNode with
      | zero => rfl
      | succ turns => rw [evictLoop, ← hsize, hover]; rfl
    simp only [evictIfNeeded, hp, hloop]
    exact hsettle

/-! ## A list -/

structure Flat (K V : Type) where
  ledger : Ledger K V
  pool : List ℕ
  nextNode : ℕ

def flat (c : Cache K V) : Flat K V := ⟨ledger c, c.pool, c.nextNode⟩

namespace Flat

def insert (f : Flat K V) (key : K) (value : V) (w expiresAt : ℚ) : Flat K V :=
  match f.pool with
  | i :: pool => ⟨f.ledger.store i key value w expiresAt, pool, f.nextNode⟩
  | [] => ⟨f.ledger.store f.nextNode key value w expiresAt, [], f.nextNode + 1⟩

def put (f : Flat K V) (key : K) (value : V) (w expiresAt : ℚ) : Flat K V :=
  match f.ledger.map.get key with
  | some i => { f with ledger := { f.ledger with
      fields := f.ledger.fields.overwrite i value w expiresAt
      currentWeight := f.ledger.currentWeight - f.ledger.fields.weight i + w } }
  | none => f.insert key value w expiresAt

/-- What an entry of a batch leaves. -/
def write (weight : Option Weight) (expiresAt : ℚ) (f : Flat K V) (p : K × V) : Flat K V :=
  if heavy f.ledger.config weight p then { f with ledger := { f.ledger with
    log := f.ledger.log ++ [.onEvict (some p.1) (some p.2) "rejected-oversized"] } }
  else f.put p.1 p.2 (computeWeight f.ledger.config.weightFn p.2 weight) expiresAt

end Flat

omit [DecidableEq K] in
theorem flat_congr (hledger : ledger c' = ledger c) (hpool : c'.pool = c.pool)
    (hnext : c'.nextNode = c.nextNode) : flat c' = flat c := by
  simp only [flat, hledger, hpool, hnext]

theorem flat_remove (hpol : c.policy ≠ .s3fifo) : flat (remove c i) = flat c := by
  apply flat_congr (ledger_remove hpol)
  · cases hp : c.policy with
    | s3fifo => exact absurd hp hpol
    | lru | slru | sieve => simp only [remove, hp]
  · cases hp : c.policy with
    | s3fifo => exact absurd hp hpol
    | lru | slru | sieve => simp only [remove, hp]

theorem flat_append (hpol : c.policy ≠ .s3fifo) : flat (append c i) = flat c := by
  obtain ⟨links, main, candidate, probationEnd, hand, happend⟩ := append_list (i := i) hpol
  rw [happend]
  rfl

omit [DecidableEq K] in
theorem flat_insertAtMainSpaceMrU : flat (insertAtMainSpaceMrU c i) = flat c := by
  obtain ⟨memo, tail, hframe⟩ := windowOldest_frame c
  have hold : flat (windowOldest c).1 = flat c := by
    rw [hframe]
    rfl
  unfold insertAtMainSpaceMrU
  generalize windowOldest c = old at hold
  obtain ⟨c', oldest⟩ := old
  cases oldest with
  | none | some start => exact hold

theorem flat_promoteFromWindow (hpol : c.policy ≠ .s3fifo) : flat (promoteFromWindow c i) = flat c :=
  (flat_insertAtMainSpaceMrU (c := remove c i) (i := i)).trans (flat_remove hpol)

theorem flat_protect (hpol : c.policy ≠ .s3fifo) : flat (protect c i) = flat c := by
  simp only [protect]
  split
  · rfl
  · exact flat_remove hpol

theorem flat_moveToTail (hpol : c.policy ≠ .s3fifo) : flat (moveToTail c i) = flat c := by
  have hpol' : (remove c i).policy ≠ .s3fifo := by
    rw [remove_toConfig]
    exact hpol
  cases hp : c.policy with
  | s3fifo => exact absurd hp hpol
  | slru =>
    rw [moveToTail_slru hp]
    exact flat_protect hpol
  | sieve =>
    rw [moveToTail_sieve hp]
    rfl
  | lru =>
    simp only [moveToTail, hp]
    split
    · exact flat_insertAtMainSpaceMrU.trans (flat_remove hpol)
    · split
      · rfl
      · exact (flat_append hpol').trans (flat_remove hpol)

omit [DecidableEq K] in
theorem flat_countKey : flat (countKey c k) = flat c := by
  unfold countKey
  split <;> rfl

variable {now : ℚ} {ttl : Option Ttl} {p : K × V} {entries : List (K × V)} {g : Config K V}
variable {e : String} {weight : Option Weight}

omit [DecidableEq K] in
theorem flat_countWeightError :
    flat (countWeightError c v weight) = flat c := by
  unfold countWeightError
  split <;> rfl

theorem flat_insertNode : flat (insertNode c k v w x) = (flat c).insert k v w x := by
  have hentered := (insertNode_frame (c := c) (k := k) (v := v) (w := w) (e := x)).2.2.2
  have hledger := ledger_insertNode (c := c) (k := k) (v := v) (w := w) (x := x)
  have hpool : (insertNode c k v w x).pool = (takeNode c).1.pool := hentered.pool
  have hnext : (insertNode c k v w x).nextNode = (takeNode c).1.nextNode := hentered.nextNode
  simp only [flat, hledger, hpool, hnext, Flat.insert, takeNode]
  cases c.pool <;> rfl

omit [DecidableEq K] in
theorem resident_list (hpol : c.policy ≠ .s3fifo) (key : K) : resident c key = c.map.get key := by
  cases hp : c.policy with
  | s3fifo => exact absurd hp hpol
  | lru | slru | sieve => simp only [resident, hp]

/-- With room for a new entry no admission filter stands in its way. -/
theorem flat_insertNew (hpol : c.policy ≠ .s3fifo) (hsketch : c.sketch ≠ none → c.policy = .lru)
    (hroom : RoomFor c k w none) :
    flat (insertNew c k v w x c.map.size).1 = (flat c).insert k v w x ∧
      (insertNew c k v w x c.map.size).2 = true := by
  have hsize : (size c : ℚ) = c.map.size := by
    cases hp : c.policy with
    | s3fifo => exact absurd hp hpol
    | lru | slru | sieve => simp [size, hp]
  have hentries : ∀ m ∈ c.maxEntries, (c.map.size : ℚ) < m := by
    intro m hm
    have hle := hroom.entries m hm
    simp only [Option.isSome_none, Bool.false_eq_true, false_and, if_false, hsize] at hle
    linarith
  have hfull : (c.maxEntries.any fun m => decide (m ≤ (c.map.size : ℚ))) = false := by
    rw [Option.any_eq_false]
    intro m hm
    simpa using hentries m hm
  cases hs : c.sketch with
  | none =>
    rw [insertNew_plain hs]
    exact ⟨flat_insertNode, rfl⟩
  | some sketch =>
    have hlru : c.policy = .lru := hsketch (by simp [hs])
    simp only [insertNew, hs]
    split
    · have henter : flat (enterWindow c k v w x) = flat (insertNode c k v w x) := rfl
      have hpol' : (enterWindow c k v w x).policy ≠ .s3fifo := by
        show (insertNode c k v w x).policy ≠ .s3fifo
        rw [insertNode_frame.1]
        exact hpol
      have hcapacity : atCapacity (enterWindow c k v w x) c.map.size = false := by
        have hconfig : (enterWindow c k v w x).toConfig = c.toConfig := insertNode_frame.1
        have hweight : (enterWindow c k v w x).currentWeight = c.currentWeight + w :=
          insertNode_frame.2.2.1
        rw [atCapacity, hconfig, hfull, hweight, Bool.false_or, Option.any_eq_false]
        intro m hm
        have hle := hroom.weight m hm
        simp only [Option.elim_none, sub_zero] at hle
        simpa using hle
      rw [insertIntoWindow_eq hlru]
      refine ⟨?_, rfl⟩
      rw [← flat_insertNode, ← henter]
      rcases arbitrateWindow_cases (enterWindow c k v w x) sketch c.map.size with
        heq | ⟨c', ⟨memo, tail, hframe⟩, hcases⟩
      · rw [heq]
      · have hflat : flat c' = flat (enterWindow c k v w x) := by
          rw [hframe]
          rfl
        rcases hcases with heq | ⟨i, heq⟩ | ⟨i, v, -, hfull, -⟩
        · rw [heq, hflat]
        · have hpol'' : c'.policy ≠ .s3fifo := by
            rw [hframe]
            exact hpol'
          rw [heq, flat_promoteFromWindow hpol'', hflat]
        · rw [hcapacity] at hfull
          cases hfull
    · have hrefused : refused c sketch k = false := by
        rw [refused, hfull, Bool.false_and]
      rw [hrefused]
      exact ⟨flat_insertNode, rfl⟩

theorem flat_putValue (hpol : c.policy ≠ .s3fifo) (hsketch : c.sketch ≠ none → c.policy = .lru)
    (hroom : RoomFor c k w (c.map.get k)) :
    flat (putValue c k v w x).1 = (flat c).put k v w x ∧ (putValue c k v w x).2 = true := by
  have hlookup : lookup c k = c.map.get k := lookup_list hpol
  have hget : (flat c).ledger.map.get k = c.map.get k := rfl
  unfold putValue Flat.put
  rw [hlookup, hget]
  cases hfound : c.map.get k with
  | some i => exact ⟨flat_moveToTail hpol, rfl⟩
  | none =>
    rw [hfound] at hroom
    exact flat_insertNew hpol hsketch hroom

section
omit [DecidableEq K]

/-- A write for which there is room stays below the limits. -/
theorem RoomFor.below {replaced : Option ℕ} (hroom : RoomFor c k w replaced)
    (hconfig : c'.toConfig = c.toConfig)
    (hsize : size c' = size c + if replaced.isSome ∧ (resident c k).isSome then 0 else 1)
    (hweight : c'.currentWeight = c.currentWeight - replaced.elim 0 c.weight + w)
    (hsmall : c.policy = .s3fifo → c'.smallSize ≤ c.smallMaxSize) : Below c' := by
  refine ⟨⟨fun m hm => ?_, fun m hm => ?_⟩, fun hp => ?_⟩
  · rw [hconfig] at hm
    have hle := hroom.entries m hm
    rw [hsize]
    push_cast
    exact hle
  · rw [hconfig] at hm
    rw [hweight]
    exact hroom.weight m hm
  · rw [hconfig] at hp ⊢
    exact hsmall hp

theorem Below.congr (h : Below c) (hconfig : c'.toConfig = c.toConfig) (hmap : c'.map = c.map)
    (hsmall : c'.smallSize = c.smallSize) (hweight : c'.currentWeight = c.currentWeight) : Below c' := by
  have hsize : size c' = size c := by
    simp only [size, hconfig, hmap, hsmall]
  refine ⟨⟨?_, ?_⟩, ?_⟩
  · rw [hconfig, hsize]
    exact h.maxEntries
  · rw [hconfig, hweight]
    exact h.maxWeight
  · rw [hconfig, hsmall]
    exact h.small

theorem size_list_eq (hpol : c.policy ≠ .s3fifo) : size c = c.map.size := by
  cases hp : c.policy with
  | s3fifo => exact absurd hp hpol
  | lru | slru | sieve => simp only [size, hp]

end

theorem below_put (hpol : c.policy ≠ .s3fifo) (hroom : RoomFor c k w (c.map.get k))
    (hflat : flat c' = (flat c).put k v w x) : Below c' := by
  have hledger : ledger c' = ((flat c).put k v w x).ledger := congrArg Flat.ledger hflat
  have hget : (flat c).ledger.map.get k = c.map.get k := rfl
  have hpol' : (flat c).ledger.config.policy ≠ .s3fifo := hpol
  have hinsert : ((flat c).insert k v w x).ledger = (ledger c).store (takeNode c).2 k v w x := by
    simp only [Flat.insert, flat, takeNode]
    cases c.pool <;> rfl
  have hresident := resident_list hpol k
  unfold Flat.put at hledger
  rw [hget] at hledger
  cases hfound : c.map.get k with
  | some i =>
    simp only [hfound] at hledger
    have hconfig : c'.toConfig = c.toConfig := congrArg Ledger.config hledger
    have hmap : c'.map = c.map := congrArg Ledger.map hledger
    rw [hfound] at hroom
    refine hroom.below hconfig ?_ (congrArg Ledger.currentWeight hledger) fun hp => absurd hp hpol
    rw [size_list_eq (by rw [hconfig]; exact hpol), size_list_eq hpol, hmap, hresident, hfound]
    simp
  | none =>
    simp only [hfound, hinsert] at hledger
    have hconfig : c'.toConfig = c.toConfig := congrArg Ledger.config hledger
    have hmap : c'.map = c.map.set k (takeNode c).2 :=
      (congrArg Ledger.map hledger).trans (if_neg hpol)
    rw [hfound] at hroom
    refine hroom.below hconfig ?_ ?_ fun hp => absurd hp hpol
    · rw [size_list_eq (by rw [hconfig]; exact hpol), size_list_eq hpol, hmap]
      simp [KeyMap.set, hfound]
    · rw [Option.elim_none, sub_zero]
      exact congrArg Ledger.currentWeight hledger

structure Writable (c : Cache K V) : Prop where
  below : Below c
  sketch : c.sketch ≠ none → c.policy = .lru

namespace Writable

omit [DecidableEq K] in
theorem congr (h : Writable c) (hflat : flat c' = flat c) : Writable c' := by
  have hledger : ledger c' = ledger c := congrArg Flat.ledger hflat
  have hconfig : c'.toConfig = c.toConfig := congrArg Ledger.config hledger
  refine ⟨h.below.congr hconfig ?_ ?_ ?_, ?_⟩
  · exact congrArg Ledger.map hledger
  · exact congrArg Ledger.smallSize hledger
  · exact congrArg Ledger.currentWeight hledger
  · rw [hconfig]
    exact h.sketch

end Writable

omit [DecidableEq K] in
theorem countWeightError_frame (c : Cache K V) (v : V) (weight : Option Weight) :
    ∃ cs, countWeightError c v weight = { c with counters := cs } := by
  unfold countWeightError
  split
  · exact ⟨_, rfl⟩
  · exact ⟨c.counters, rfl⟩

omit [DecidableEq K] in
theorem heavy_iff :
    heavy c.toConfig weight p = oversized c (computeWeight c.weightFn p.2 weight) := rfl

/-- What both paths of a write do once the weight is settled. -/
theorem flat_put (v : V) (x : ℚ) (weight : Option Weight) (h : Writable c) (hpol : c.policy ≠ .s3fifo)
    (hroom : RoomFor c k w (c.map.get k)) :
    flat (putValue (countWeightError c v weight) k v w x).1 = (flat c).put k v w x ∧
      (putValue (countWeightError c v weight) k v w x).2 = true ∧
      Writable (putValue (countWeightError c v weight) k v w x).1 := by
  obtain ⟨cs, hcount⟩ := countWeightError_frame c v weight
  have hroom' : RoomFor { c with counters := cs } k w (c.map.get k) :=
    ⟨hroom.entries, hroom.weight, hroom.small⟩
  rw [hcount]
  obtain ⟨hflat, hstored⟩ := flat_putValue (c := { c with counters := cs }) (v := v) (x := x) hpol
    h.sketch hroom'
  have hflat' : flat (putValue { c with counters := cs } k v w x).1 = (flat c).put k v w x := by
    rw [hflat, ← hcount, flat_countWeightError]
  refine ⟨hflat', hstored, below_put hpol hroom hflat', ?_⟩
  have hconfig : (putValue { c with counters := cs } k v w x).1.toConfig = c.toConfig := by
    have hledger := congrArg (fun f => f.ledger.config) hflat'
    refine hledger.trans ?_
    unfold Flat.put Flat.insert
    split
    · rfl
    · split <;> rfl
  rw [hconfig]
  exact h.sketch

theorem flat_rejected (h : Writable c)
    (hheavy : heavy c.toConfig weight p = true) :
    flat (reject (countWeightError c p.2 weight) p.1 p.2) = (flat c).write weight x p ∧
      Writable (reject (countWeightError c p.2 weight) p.1 p.2) := by
  have hreject : ∀ c' : Cache K V, flat (reject c' p.1 p.2) = { flat c' with ledger :=
      { (flat c').ledger with
        log := (flat c').ledger.log ++ [.onEvict (some p.1) (some p.2) "rejected-oversized"] } } :=
    fun _ => rfl
  refine ⟨?_, ?_⟩
  · rw [hreject, flat_countWeightError]
    exact (if_pos hheavy).symm
  · obtain ⟨cs, hcount⟩ := countWeightError_frame c p.2 weight
    rw [hcount]
    exact ⟨⟨⟨h.below.maxEntries, h.below.maxWeight⟩, h.below.small⟩, h.sketch⟩

theorem flat_store (h : Writable c) (hpol : c.policy ≠ .s3fifo)
    (hfits : SetFits weight c p) :
    flat (store c p.1 p.2 x weight).1 = (flat c).write weight x p ∧
      Writable (store c p.1 p.2 x weight).1 := by
  rw [store_eq, ← heavy_iff]
  cases hheavy : heavy c.toConfig weight p with
  | true => exact flat_rejected h hheavy
  | false =>
    have hroom := hfits hheavy
    rw [lookup_list hpol] at hroom
    obtain ⟨hflat, hstored, hwritable⟩ := flat_put p.2 x weight h hpol hroom
    have hcounted := hwritable.congr (flat_countKey (k := p.1))
    obtain ⟨candidate, hevict⟩ := evictIfNeeded_below hcounted.below
    have hsettled : flat (evictIfNeeded (countKey (putValue (countWeightError c p.2 weight) p.1 p.2
        (computeWeight c.weightFn p.2 weight) x).1 p.1)) = (flat c).write weight x p := by
      rw [hevict]
      refine flat_countKey.trans (hflat.trans ?_)
      exact (if_neg (by simpa [flat, ledger] using hheavy)).symm
    simp only [hstored, Bool.false_eq_true, if_false, if_true]
    refine ⟨hsettled, hcounted.congr ?_⟩
    rw [hevict]
    rfl

theorem flat_setManyOne (h : Writable c)
    (hpol : c.policy ≠ .s3fifo) (hfits : SetManyFits weight c p) :
    flat (setManyOne x weight c p) = (flat c).write weight x p ∧
      Writable (setManyOne x weight c p) := by
  rw [Aimed.setManyOne_eq hpol, ← heavy_iff]
  cases hheavy : heavy c.toConfig weight p with
  | true => exact flat_rejected h hheavy
  | false =>
    obtain ⟨hflat, hstored, hwritable⟩ := flat_put p.2 x weight h hpol (hfits hheavy)
    simp only [hstored, Bool.false_eq_true, if_false, if_true]
    refine ⟨flat_countKey.trans (hflat.trans ?_), hwritable.congr (flat_countKey (k := p.1))⟩
    exact (if_neg (by simpa [flat, ledger] using hheavy)).symm

/-! ## Three queues -/

/-- What is under a key in an index is a node of that key and of that queue, and no node to
be taken next. -/
structure Indexed (c : Cache K V) : Prop where
  node : ∀ q k i, (c.toHeap.index q).get k = some i →
    c.key i = some k ∧ c.queue i = q ∧ i < c.nextNode ∧ i ∉ c.pool
  pool : c.pool.Nodup ∧ ∀ i ∈ c.pool, i < c.nextNode

omit [DecidableEq K] in
theorem Rep.indexed {xs : Queue → List ℕ} (h : Rep c xs) : Indexed c := by
  have hnodup := h.shape.nodup
  simp only [Heap.nodes, List.append_nil, List.nodup_append] at hnodup
  have hpool : ∀ q, ∀ i ∈ xs q, i ∉ c.pool := by
    intro q i hi hmem
    cases q <;> grind
  have hbound : ∀ i ∈ c.toHeap.nodes xs [], i < c.nextNode := h.shape.bound
  refine ⟨fun q k i hget => ?_, ?_, fun i hi => hbound i ?_⟩
  · obtain ⟨hi, hkey⟩ := ((h.shape.index q).get_iff k i).mp hget
    refine ⟨hkey, h.shape.queue q i hi, hbound i ?_, hpool q i hi⟩
    cases q <;> simp [Heap.nodes, hi]
  · exact hnodup.2.1.2.1.2.1
  · simp [Heap.nodes, hi]

/-- The entry of one node is written, and the others keep theirs. -/
theorem entryOf_update (hi : ∀ k', k' ≠ k → resident c k' ≠ some i)
    (hself : resident c' k = some i)
    (hothers : ∀ k', k' ≠ k → resident c' k' = resident c k')
    (hfields : ∀ j, j ≠ i → c'.value j = c.value j ∧ c'.weight j = c.weight j ∧
      c'.expiresAt j = c.expiresAt j)
    (hwritten : (c'.value i, c'.weight i, c'.expiresAt i) = (some v, w, x)) :
    entryOf c' = update (entryOf c) k (some (some v, w, x)) := by
  funext k'
  by_cases hk : k' = k
  · subst hk
    rw [update_self, entryOf, hself, Option.map_some, hwritten]
  · rw [update_of_ne hk, entryOf, entryOf, hothers k' hk]
    cases hj : resident c k' with
    | none => rfl
    | some j =>
      have hne : j ≠ i := by
        rintro rfl
        exact hi k' hk hj
      obtain ⟨hvalue, hweight, hexpires⟩ := hfields j hne
      simp only [Option.map_some, hvalue, hweight, hexpires]

structure Wrote (c c' : Cache K V) (k : K) (e : Content V) : Prop where
  config : c'.toConfig = c.toConfig
  entries : entryOf c' = Function.update (entryOf c) k (some e)
  log : c'.log = c.log
  indexed : Indexed c'
  below : Below c'

/-- From `c` to `c'` the node of `k` was written and went from the queue `q` to Main. -/
structure Promoted (c c' : Cache K V) (q : Queue) (i : ℕ) (k : K) (v : V) (w x : ℚ) : Prop where
  config : c'.toConfig = c.toConfig
  fields : c'.toFields = c.toFields.write i v w x
  index : c'.toHeap.index = Function.update
    (Function.update c.toHeap.index q ((c.toHeap.index q).delete k)) .main (c.map.set k i)
  queue : c'.queue = Function.update c.queue i .main
  pool : c'.pool = c.pool ∧ c'.nextNode = c.nextNode
  smallSize : c'.smallSize = c.smallSize - if q = .small then 1 else 0
  weight : c'.currentWeight = c.currentWeight - c.weight i + w
  log : c'.log = c.log

namespace Indexed

omit [DecidableEq K] in
protected theorem resident (h : Indexed c) (hget : resident c k = some i) : c.key i = some k := by
  have hnode : ∀ q, (c.toHeap.index q).get k = some i → c.key i = some k := fun q hq => (h.node q k i hq).1
  unfold resident at hget
  cases hp : c.policy with
  | lru | slru | sieve =>
    simp only [hp] at hget
    exact hnode .main hget
  | s3fifo =>
    simp only [hp] at hget
    cases hm : c.map.get k with
    | some j =>
      rw [hm] at hget
      exact hnode .main (hm.trans hget)
    | none =>
      rw [hm] at hget
      exact hnode .small hget

omit [DecidableEq K] in
/-- The node that is taken is under no key. -/
protected theorem takeNode (h : Indexed c) : (∀ q k, (c.toHeap.index q).get k ≠ some (takeNode c).2) ∧
    (takeNode c).2 < (takeNode c).1.nextNode ∧
    (takeNode c).2 ∉ (takeNode c).1.pool ∧
    c.nextNode ≤ (takeNode c).1.nextNode ∧ (takeNode c).1.pool ⊆ c.pool ∧
    (takeNode c).1.pool.Nodup := by
  obtain ⟨hnodup, hbound⟩ := h.pool
  unfold takeNode
  cases hp : c.pool with
  | nil =>
    refine ⟨fun q k hget => ?_, Nat.lt_succ_self _, ?_, Nat.le_succ _, ?_, ?_⟩
    · exact lt_irrefl _ (h.node q k _ hget).2.2.1
    · simp
    · simp
    · simp
  | cons i pool =>
    rw [hp] at hnodup hbound
    refine ⟨fun q k hget => ?_, hbound i (by simp), (List.nodup_cons.mp hnodup).1, le_rfl, ?_,
      (List.nodup_cons.mp hnodup).2⟩
    · exact (h.node q k i hget).2.2.2 (by simp [hp])
    · exact List.subset_cons_self i pool

protected theorem insertNode (h : Indexed c) (hpol : c.policy = .s3fifo) (hfresh : c.map.get k = none) :
    entryOf (insertNode c k v w x) = update (entryOf c) k (some (some v, w, x)) ∧
      Indexed (insertNode c k v w x) := by
  obtain ⟨hnew, hlt, hnotMem, hle, hsub, hnodup⟩ := h.takeNode
  have hledger := ledger_insertNode (c := c) (k := k) (v := v) (w := w) (x := x)
  obtain ⟨hconfig, hfields, -, hentered⟩ := insertNode_frame (c := c) (k := k) (v := v) (w := w) (e := x)
  have hpol' : (insertNode c k v w x).policy = .s3fifo := by
    rw [hconfig]
    exact hpol
  have hmap : (insertNode c k v w x).map = c.map :=
    (congrArg Ledger.map hledger).trans (if_pos hpol)
  have hsmall : (insertNode c k v w x).smallMap = c.smallMap.set k (takeNode c).2 :=
    (congrArg Ledger.smallMap hledger).trans (if_pos hpol)
  have hghost : (insertNode c k v w x).ghostMap = c.ghostMap :=
    congrArg Ledger.ghostMap hledger
  have hpool : (insertNode c k v w x).pool = (takeNode c).1.pool := hentered.pool
  have hnext : (insertNode c k v w x).nextNode = (takeNode c).1.nextNode :=
    hentered.nextNode
  have hqueue : ∀ j, (insertNode c k v w x).queue j =
      if j = (takeNode c).2 then .small else c.queue j := by
    have htaken : (takeNode c).1.queue = c.queue := by
      unfold takeNode
      cases c.pool <;> rfl
    have halloc : (allocNode c k v w x).1.queue =
        update (takeNode c).1.queue (takeNode c).2 .main := rfl
    intro j
    rw [hentered.queue, hpol, halloc, htaken, Function.update_idem]
    exact Function.update_apply _ _ _ _
  have hput : ∀ j, j ≠ (takeNode c).2 →
      (insertNode c k v w x).key j = c.key j ∧
        (insertNode c k v w x).value j = c.value j ∧
        (insertNode c k v w x).weight j = c.weight j ∧
        (insertNode c k v w x).expiresAt j = c.expiresAt j := by
    intro j hj
    rw [hfields]
    simp only [Fields.put, update_of_ne hj, and_self]
  have hself : (insertNode c k v w x).key (takeNode c).2 = some k ∧
      ((insertNode c k v w x).value (takeNode c).2,
        (insertNode c k v w x).weight (takeNode c).2,
        (insertNode c k v w x).expiresAt (takeNode c).2) = (some v, w, x) := by
    rw [hfields]
    simp only [Fields.put, update_self, and_self]
  refine ⟨?_, ?_, ?_⟩
  · apply entryOf_update (i := (takeNode c).2)
    · intro k' _ hget
      simp only [resident, hpol] at hget
      cases hm : c.map.get k' with
      | some j =>
        rw [hm] at hget
        exact hnew .main k' (hm.trans hget)
      | none =>
        rw [hm] at hget
        exact hnew .small k' hget
    · simp [resident, hpol', hmap, hfresh, hsmall, KeyMap.set]
    · intro k' hk
      simp only [resident, hpol', hpol, hmap, hsmall, KeyMap.set, update_of_ne hk]
    · exact fun j hj => (hput j hj).2
    · exact hself.2
  · have hold : ∀ q k' j, (c.toHeap.index q).get k' = some j →
        (insertNode c k v w x).key j = some k' ∧
          (insertNode c k v w x).queue j = q ∧
          j < (insertNode c k v w x).nextNode ∧
          j ∉ (insertNode c k v w x).pool := by
      intro q k' j hget
      obtain ⟨hkey, hq, hbound, hfree⟩ := h.node q k' j hget
      have hne : j ≠ (takeNode c).2 := by
        rintro rfl
        exact hnew q k' hget
      rw [(hput j hne).1, hqueue, if_neg hne, hnext, hpool]
      exact ⟨hkey, hq, hbound.trans_le hle, fun hmem => hfree (hsub hmem)⟩
    intro q k' j hget
    cases q with
    | main => exact hold .main k' j (by rw [← hget]; exact congrArg (KeyMap.get · k') hmap.symm)
    | ghost => exact hold .ghost k' j (by rw [← hget]; exact congrArg (KeyMap.get · k') hghost.symm)
    | small =>
      have hget' : (c.smallMap.set k (takeNode c).2).get k' = some j := by
        rw [← hsmall]
        exact hget
      by_cases hk : k' = k
      · subst hk
        simp only [KeyMap.set, update_self, Option.some.injEq] at hget'
        subst hget'
        rw [hself.1, hqueue, if_pos rfl, hnext, hpool]
        exact ⟨rfl, rfl, hlt, hnotMem⟩
      · simp only [KeyMap.set, update_of_ne hk] at hget'
        exact hold .small k' j hget'
  · rw [hpool, hnext]
    exact ⟨hnodup, fun j hj => (h.pool.2 j (hsub hj)).trans_le hle⟩

omit [DecidableEq K] in
theorem resident_ne (h : Indexed c) (hkey : c.key i = some k) (k' : K) (hk : k' ≠ k) :
    resident c k' ≠ some i := by
  intro hget
  rw [h.resident hget] at hkey
  exact hk (Option.some.inj hkey)

end Indexed

theorem Promoted.wrote {q : Queue} (hp : Promoted c c' q i k v w x) (h : Indexed c)
    (hpol : c.policy = .s3fifo) (hq : q ≠ .main) (hget : (c.toHeap.index q).get k = some i)
    (hfresh : c.map.get k = none) : entryOf c' = update (entryOf c) k (some (some v, w, x)) ∧
      Indexed c' := by
  obtain ⟨hkey, hqueue, hfree⟩ := h.node q k i hget
  have hpol' : c'.policy = .s3fifo := by
    rw [hp.config]
    exact hpol
  have hkeys : c'.key = c.key := by
    rw [hp.fields]
    rfl
  have hmap : c'.map = c.map.set k i := by
    have hmain := congrFun hp.index .main
    rw [update_self] at hmain
    exact hmain
  -- elsewhere only what was there is left, and not under `k` in `q`
  have hothers : ∀ q', q' ≠ .main → ∀ k' j, (c'.toHeap.index q').get k' = some j →
      (c.toHeap.index q').get k' = some j ∧ j ≠ i := by
    intro q' hq' k' j hj
    rw [hp.index, update_of_ne hq'] at hj
    have hkept : (c.toHeap.index q').get k' = some j ∧ (q' = q → k' ≠ k) := by
      by_cases hqq : q' = q
      · subst hqq
        rw [update_self] at hj
        by_cases hk : k' = k
        · simp [KeyMap.delete, hk] at hj
        · simp only [KeyMap.delete, update_of_ne hk] at hj
          exact ⟨hj, fun _ => hk⟩
      · rw [update_of_ne hqq] at hj
        exact ⟨hj, fun heq => absurd heq hqq⟩
    refine ⟨hkept.1, ?_⟩
    rintro rfl
    obtain ⟨hkey', hqueue', -⟩ := h.node q' k' j hkept.1
    exact hkept.2 (hqueue'.symm.trans hqueue) (Option.some.inj (hkey'.symm.trans hkey))
  have hsmall : ∀ k', k' ≠ k → c'.smallMap.get k' = c.smallMap.get k' := by
    intro k' hk
    have hindex : c'.smallMap = update c.toHeap.index q ((c.toHeap.index q).delete k) .small :=
      (congrFun hp.index .small).trans (update_of_ne (by simp) _ _)
    rw [hindex]
    by_cases hqs : Queue.small = q
    · subst hqs
      rw [update_self]
      exact update_of_ne hk _ _
    · rw [update_of_ne hqs]
      rfl
  have hold : ∀ q k' j, (c.toHeap.index q).get k' = some j → j ≠ i →
      c'.key j = some k' ∧ c'.queue j = q ∧ j < c'.nextNode ∧ j ∉ c'.pool := by
    intro q k' j hget hne
    obtain ⟨hj, hq, hbound⟩ := h.node q k' j hget
    rw [hkeys, hp.queue, update_of_ne hne, hp.pool.1, hp.pool.2]
    exact ⟨hj, hq, hbound⟩
  refine ⟨?_, ?_, ?_⟩
  · apply entryOf_update (i := i)
    · exact h.resident_ne hkey
    · simp [resident, hpol', hmap, KeyMap.set]
    · intro k' hk
      simp only [resident, hpol', hpol, hmap, KeyMap.set, update_of_ne hk,
        hsmall k' hk]
    · intro j hj
      rw [hp.fields]
      simp only [Fields.write, update_of_ne hj, and_self]
    · rw [hp.fields]
      simp only [Fields.write, update_self]
  · intro q' k' j hj
    by_cases hq' : q' = .main
    · subst hq'
      have hj' : (c.map.set k i).get k' = some j := by
        rw [← hmap]
        exact hj
      by_cases hk : k' = k
      · subst hk
        simp only [KeyMap.set, update_self, Option.some.injEq] at hj'
        subst hj'
        rw [hkeys, hp.queue, update_self, hp.pool.1, hp.pool.2]
        exact ⟨hkey, rfl, hfree⟩
      · simp only [KeyMap.set, update_of_ne hk] at hj'
        refine hold .main k' j hj' ?_
        rintro rfl
        rw [(h.node .main k' j hj').1] at hkey
        exact hk (Option.some.inj hkey)
    · obtain ⟨hj', hne⟩ := hothers q' hq' k' j hj
      exact hold q' k' j hj' hne
  · rw [hp.pool.1, hp.pool.2]
    exact h.pool

/-- The eviction behind it takes nothing. -/
theorem Promoted.evicted {q : Queue} (hp : Promoted c c' q i k v w x) (h : Indexed c)
    (hpol : c.policy = .s3fifo) (hbelow : Below c) (hroom : RoomFor c k w (some i)) (hq : q ≠ .main)
    (hget : (c.toHeap.index q).get k = some i) (hfresh : c.map.get k = none)
    (hres : resident c k = if q = .small then some i else none) :
    Wrote c (evictIfNeeded c') k (some v, w, x) := by
  have hmap : c'.map = c.map.set k i := by
    have hmain := congrFun hp.index .main
    rw [update_self] at hmain
    exact hmain
  have hbelow' : Below c' := by
    refine hroom.below hp.config ?_ hp.weight fun hs => ?_
    · rw [hres]
      simp only [size, hp.config, hpol, hmap, hp.smallSize, KeyMap.set, hfresh]
      by_cases hqs : q = .small
      · simp [hqs]
      · simp [hqs]
        ring
    · have hle := hbelow.small hs
      rw [hp.smallSize]
      split <;> omega
  obtain ⟨hentries, hindexed⟩ := hp.wrote h hpol hq hget hfresh
  obtain ⟨candidate, hevict⟩ := evictIfNeeded_below hbelow'
  rw [hevict]
  exact ⟨hp.config, hentries, hp.log, ⟨hindexed.node, hindexed.pool⟩,
    ⟨⟨hbelow'.maxEntries, hbelow'.maxWeight⟩, hbelow'.small⟩⟩

namespace Indexed

protected theorem updateExisting (h : Indexed c) (hpol : c.policy = .s3fifo) (hbelow : Below c)
    (hroom : RoomFor c k w (some i)) (hfound : lookup c k = some i) :
    Wrote c (updateExisting c i v w x) k (some v, w, x) := by
  have hkeyOf : ∀ q, (c.toHeap.index q).get k = some i → c.key i = some k ∧ c.queue i = q :=
    fun q hget => ⟨(h.node q k i hget).1, (h.node q k i hget).2.1⟩
  simp only [lookup, hpol] at hfound
  cases hm : c.map.get k with
  | some j =>
    rw [hm] at hfound
    obtain rfl : j = i := Option.some.inj hfound
    obtain ⟨hkey, hq⟩ := hkeyOf .main hm
    have hres : resident c k = some j := by
      simp [resident, hpol, hm]
    simp only [updateExisting, moveToTail, hpol, hq]
    refine ⟨rfl, ?_, rfl, ⟨h.node, h.pool⟩, ?_⟩
    · apply entryOf_update (i := j)
      · exact h.resident_ne hkey
      · exact hres
      · exact fun k' _ => rfl
      · intro j' hj
        simp only [update_of_ne hj, and_self]
      · simp only [update_self]
    · refine hroom.below rfl ?_ rfl hbelow.small
      simp [hres, size]
  | none =>
    rw [hm] at hfound
    cases hs : c.smallMap.get k with
    | some j =>
      rw [hs] at hfound
      obtain rfl : j = i := Option.some.inj hfound
      obtain ⟨hkey, hq⟩ := hkeyOf .small hs
      simp only [updateExisting, moveToTail, hpol, hq]
      refine Promoted.evicted (q := .small) ⟨rfl, rfl, ?_, rfl, ⟨rfl, rfl⟩, rfl, rfl, rfl⟩ h hpol hbelow
        hroom (by simp) hs hm (by simp [resident, hpol, hm, hs])
      funext q
      have hsets : setKey c.map (c.key j) j = c.map.set k j := by rw [hkey]; rfl
      have hdeletes : deleteKey c.smallMap (c.key j) = c.smallMap.delete k := by rw [hkey]; rfl
      cases q with
      | main => exact hsets
      | small => exact hdeletes
      | ghost => rfl
    | none =>
      rw [hs] at hfound
      obtain ⟨hkey, hq⟩ := hkeyOf .ghost hfound
      simp only [updateExisting, moveToTail, hpol, hq]
      refine Promoted.evicted (q := .ghost) ⟨rfl, rfl, ?_, rfl, ⟨rfl, rfl⟩, ?_, rfl, rfl⟩ h hpol hbelow
        hroom (by simp) hfound hm (by simp [resident, hpol, hm, hs])
      · funext q
        have hsets : setKey c.map (c.key i) i = c.map.set k i := by rw [hkey]; rfl
        have hdeletes : deleteKey c.ghostMap (c.key i) = c.ghostMap.delete k := by rw [hkey]; rfl
        cases q with
        | main => exact hsets
        | small => rfl
        | ghost => exact hdeletes
      · exact (sub_zero c.smallSize).symm

end Indexed

/-- A key that Main does not have goes to Small. -/
protected theorem Indexed.insertNew (h : Indexed c) (hpol : c.policy = .s3fifo) (hsketch : c.sketch = none)
    (hroom : RoomFor c k w none) (hfresh : c.map.get k = none) :
    Wrote c (insertNew c k v w x c.map.size).1 k (some v, w, x) ∧
      (insertNew c k v w x c.map.size).2 = true := by
  rw [insertNew_plain hsketch]
  have hledger := ledger_insertNode (c := c) (k := k) (v := v) (w := w) (x := x)
  obtain ⟨hentries, hindexed⟩ := h.insertNode (v := v) (w := w) (x := x) hpol hfresh
  have hconfig : (insertNode c k v w x).toConfig = c.toConfig := insertNode_frame.1
  have hsmall : (insertNode c k v w x).smallSize = c.smallSize + 1 :=
    (congrArg Ledger.smallSize hledger).trans (if_pos hpol)
  have hmap : (insertNode c k v w x).map = c.map :=
    (congrArg Ledger.map hledger).trans (if_pos hpol)
  refine ⟨⟨hconfig, hentries, congrArg Ledger.log hledger, hindexed, ?_⟩, rfl⟩
  refine hroom.below hconfig ?_ ?_ fun hs => ?_
  · simp only [size, hconfig, hpol, hmap, hsmall, Option.isSome_none, Bool.false_eq_true, false_and,
      if_false]
    ring
  · rw [Option.elim_none, sub_zero]
    exact congrArg Ledger.currentWeight hledger
  · rw [hsmall]
    exact hroom.small hs rfl

structure Queued (c : Cache K V) : Prop where
  policy : c.policy = .s3fifo
  sketch : c.sketch = none
  below : Below c
  indexed : Indexed c

namespace Queued

omit [DecidableEq K] in
protected theorem countWeightError (h : Queued c) (v : V) (weight : Option Weight) :
    Queued (countWeightError c v weight) ∧
      entryOf (countWeightError c v weight) = entryOf c ∧
      (countWeightError c v weight).log = c.log ∧
      (countWeightError c v weight).toConfig = c.toConfig ∧
      (countWeightError c v weight).map = c.map ∧
      lookup (countWeightError c v weight) = lookup c ∧
      ∀ k w replaced, RoomFor c k w replaced →
        RoomFor (countWeightError c v weight) k w replaced := by
  obtain ⟨cs, hcount⟩ := countWeightError_frame c v weight
  rw [hcount]
  exact ⟨⟨h.policy, h.sketch, ⟨⟨h.below.maxEntries, h.below.maxWeight⟩, h.below.small⟩,
    ⟨h.indexed.node, h.indexed.pool⟩⟩, rfl, rfl, rfl, rfl, rfl,
    fun _ _ _ hroom => ⟨hroom.entries, hroom.weight, hroom.small⟩⟩

theorem wrote {e : Content V} (h : Queued c) (hwrote : Wrote c c' k e) : Queued c' := by
  refine ⟨?_, ?_, hwrote.below, hwrote.indexed⟩
  · rw [hwrote.config]
    exact h.policy
  · rw [hwrote.config]
    exact h.sketch

theorem store {weight : Option Weight} {p : K × V} (h : Queued c) (hfits : SetFits weight c p)
    (hheavy : heavy c.toConfig weight p = false) : Wrote c (store c p.1 p.2 x weight).1 p.1
      (some p.2, computeWeight c.weightFn p.2 weight, x) := by
  obtain ⟨hq, hentries, hlog, hconfig, hmap, hlookup, hroom⟩ := h.countWeightError p.2 weight
  rw [store_eq, ← heavy_iff]
  simp only [hheavy, Bool.false_eq_true, if_false]
  generalize countWeightError c p.2 weight = c₁ at *
  have hfit := hroom _ _ _ (hfits hheavy)
  have hput : Wrote c₁ (putValue c₁ p.1 p.2 (computeWeight c.weightFn p.2 weight) x).1 p.1
      (some p.2, computeWeight c.weightFn p.2 weight, x) ∧
      (putValue c₁ p.1 p.2 (computeWeight c.weightFn p.2 weight) x).2 = true := by
    unfold putValue
    rw [hlookup]
    cases hfound : lookup c p.1 with
    | some i =>
      rw [hfound] at hfit
      rw [← hlookup] at hfound
      exact ⟨hq.indexed.updateExisting hq.policy hq.below hfit hfound, rfl⟩
    | none =>
      rw [hfound] at hfit
      rw [← hlookup] at hfound
      exact hq.indexed.insertNew hq.policy hq.sketch hfit (lookup_none hq.policy hfound .main)
  obtain ⟨hwrote, hstored⟩ := hput
  obtain ⟨candidate, hevict⟩ := evictIfNeeded_below hwrote.below
  rw [hstored, if_pos rfl, countKey_plain (hq.wrote hwrote).sketch, hevict]
  refine ⟨hwrote.config.trans hconfig, ?_, hwrote.log.trans hlog,
    ⟨hwrote.indexed.node, hwrote.indexed.pool⟩,
    ⟨⟨hwrote.below.maxEntries, hwrote.below.maxWeight⟩, hwrote.below.small⟩⟩
  rw [← hentries]
  exact hwrote.entries

protected theorem setManyOne {weight : Option Weight} {p : K × V} (h : Queued c)
    (hfits : SetManyFits weight c p) (hheavy : heavy c.toConfig weight p = false) :
    Wrote c (setManyOne x weight c p) p.1 (some p.2, computeWeight c.weightFn p.2 weight, x) := by
  obtain ⟨hq, hentries, hlog, hconfig, hmap, hlookup, hroom⟩ := h.countWeightError p.2 weight
  have hheavy' : oversized (countWeightError c p.2 weight)
      (computeWeight c.weightFn p.2 weight) = false := by
    simp only [oversized, hconfig]
    exact hheavy
  have hfit := hroom _ _ _ (hfits hheavy)
  simp only [setManyOne, hheavy', Bool.false_eq_true, if_false, hmap]
  generalize countWeightError c p.2 weight = c₁ at *
  have hwrote : ∀ c₂, Wrote c₁ c₂ p.1 (some p.2, computeWeight c.weightFn p.2 weight, x) →
      Wrote c (countKey c₂ p.1) p.1 (some p.2, computeWeight c.weightFn p.2 weight, x) := by
    intro c₂ hwrote
    rw [countKey_plain (hq.wrote hwrote).sketch]
    refine ⟨hwrote.config.trans hconfig, ?_, hwrote.log.trans hlog, hwrote.indexed, hwrote.below⟩
    rw [← hentries]
    exact hwrote.entries
  cases hfound : c.map.get p.1 with
  | some i =>
    rw [hfound] at hfit
    apply hwrote
    refine hq.indexed.updateExisting hq.policy hq.below hfit ?_
    simp [lookup, hq.policy, hmap, hfound]
  | none =>
    rw [hfound] at hfit
    have hfresh : c₁.map.get p.1 = none := by
      rw [hmap]
      exact hfound
    obtain ⟨hone, hstored⟩ := hq.indexed.insertNew (v := p.2) (x := x) hq.policy hq.sketch hfit
      hfresh
    simp only []
    rw [← hmap]
    generalize insertNew c₁ p.1 p.2 (computeWeight c.weightFn p.2 weight) x c₁.map.size = res at *
    obtain ⟨c₂, stored⟩ := res
    obtain rfl : stored = true := hstored
    exact hwrote c₂ hone

end Queued

/-! ## The two runs -/

inductive Batched (c : Cache K V) : Prop where
  | list (policy : c.policy ≠ .s3fifo) (writable : Writable c)
  | queues (queued : Queued c)

theorem entryOf_put (hpol : c.policy ≠ .s3fifo) (hconfig : c'.toConfig = c.toConfig)
    (hflat : flat c' = (flat c).put k v w x) : entryOf c' k = some (some v, w, x) := by
  have hledger : ledger c' = ((flat c).put k v w x).ledger := congrArg Flat.ledger hflat
  have hpol' : c'.policy ≠ .s3fifo := by
    rw [hconfig]
    exact hpol
  have hentry : entryOf c' k = ((ledger c').map.get k).map fun i =>
      ((ledger c').fields.value i, (ledger c').fields.weight i, (ledger c').fields.expiresAt i) := by
    rw [entryOf, resident_list hpol']
    rfl
  have hinsert : ((flat c).insert k v w x).ledger = (ledger c).store (takeNode c).2 k v w x := by
    simp only [Flat.insert, flat, takeNode]
    cases c.pool <;> rfl
  have hstore : ((ledger c).store (takeNode c).2 k v w x).map.get k = some (takeNode c).2 := by
    have hmap : ((ledger c).store (takeNode c).2 k v w x).map = c.map.set k (takeNode c).2 := if_neg hpol
    rw [hmap]
    exact update_self _ _ _
  have hget : (flat c).ledger.map.get k = c.map.get k := rfl
  rw [hentry, hledger, Flat.put, hget]
  cases hfound : c.map.get k with
  | some i =>
    have hget' : (ledger c).map.get k = some i := hfound
    simp [flat, hget', Fields.overwrite]
  | none =>
    simp only [hinsert, hstore]
    simp [Ledger.store, Fields.put]

structure Written (weight : Option Weight) (x : ℚ) (c c' : Cache K V) (p : K × V) : Prop where
  config : c'.toConfig = c.toConfig
  batched : Batched c'
  kept : heavy c.toConfig weight p = true → entryOf c' = entryOf c
  stored : heavy c.toConfig weight p = false →
    entryOf c' p.1 = some (some p.2, computeWeight c.weightFn p.2 weight, x)

theorem store_heavy (hheavy : heavy c.toConfig weight p = true) :
    (store c p.1 p.2 x weight).1 = reject (countWeightError c p.2 weight) p.1 p.2 := by
  rw [store_eq, ← heavy_iff, if_pos hheavy]

theorem setManyOne_heavy
    (hheavy : heavy c.toConfig weight p = true) :
    setManyOne x weight c p = reject (countWeightError c p.2 weight) p.1 p.2 := by
  have hover : oversized (countWeightError c p.2 weight) (computeWeight c.weightFn p.2 weight) = true := by
    have hconfig : (countWeightError c p.2 weight).toConfig = c.toConfig := countWeightError_toConfig
    simp only [oversized, hconfig]
    exact hheavy
  simp only [setManyOne, hover, if_true]

namespace Batched

variable {p : K × V} {weight : Option Weight}

omit [DecidableEq K] in
theorem reject (h : Batched c)
    (hheavy : heavy c.toConfig weight p = true) :
    Written weight x c (reject (countWeightError c p.2 weight) p.1 p.2) p := by
  obtain ⟨cs, hcount⟩ := countWeightError_frame c p.2 weight
  rw [hcount]
  refine ⟨rfl, ?_, fun _ => rfl, fun hlight => absurd hheavy (by simp [hlight])⟩
  cases h with
  | list hpol hw =>
    exact .list hpol ⟨⟨⟨hw.below.maxEntries, hw.below.maxWeight⟩, hw.below.small⟩, hw.sketch⟩
  | queues hq =>
    exact .queues ⟨hq.policy, hq.sketch, ⟨⟨hq.below.maxEntries, hq.below.maxWeight⟩, hq.below.small⟩,
      ⟨hq.indexed.node, hq.indexed.pool⟩⟩

theorem of_write (hpol : c.policy ≠ .s3fifo)
    (hlight : heavy c.toConfig weight p = false)
    (hflat : flat c' = (flat c).write weight x p) (hwritable : Writable c') :
    Written weight x c c' p := by
  have hput : flat c' = (flat c).put p.1 p.2 (computeWeight c.weightFn p.2 weight) x :=
    hflat.trans (if_neg (by simpa [flat, ledger] using hlight))
  have hconfig : c'.toConfig = c.toConfig := by
    refine (congrArg (fun f => f.ledger.config) hput).trans ?_
    unfold Flat.put Flat.insert
    split
    · rfl
    · split <;> rfl
  refine ⟨hconfig, .list ?_ hwritable, fun hheavy => absurd hheavy (by simp [hlight]), fun _ => ?_⟩
  · rw [hconfig]
    exact hpol
  · exact entryOf_put hpol hconfig hput

theorem of_wrote (h : Queued c)
    (hlight : heavy c.toConfig weight p = false)
    (hwrote : Wrote c c' p.1 (some p.2, computeWeight c.weightFn p.2 weight, x)) :
    Written weight x c c' p := by
  refine ⟨hwrote.config, .queues (h.wrote hwrote), fun hheavy => absurd hheavy (by simp [hlight]),
    fun _ => ?_⟩
  rw [hwrote.entries, update_self]

theorem store (h : Batched c) (hfits : SetFits weight c p) :
    Written weight x c (store c p.1 p.2 x weight).1 p := by
  cases hheavy : heavy c.toConfig weight p with
  | true =>
    rw [store_heavy hheavy]
    exact h.reject hheavy
  | false =>
    cases h with
    | list hpol hw =>
      obtain ⟨hflat, hwritable⟩ := flat_store (x := x) hw hpol hfits
      exact of_write hpol hheavy hflat hwritable
    | queues hq => exact of_wrote hq hheavy (hq.store hfits hheavy)

protected theorem setManyOne (h : Batched c)
    (hfits : SetManyFits weight c p) : Written weight x c (setManyOne x weight c p) p := by
  cases hheavy : heavy c.toConfig weight p with
  | true =>
    rw [setManyOne_heavy hheavy]
    exact h.reject hheavy
  | false =>
    cases h with
    | list hpol hw =>
      obtain ⟨hflat, hwritable⟩ := flat_setManyOne (x := x) hw hpol hfits
      exact of_write hpol hheavy hflat hwritable
    | queues hq => exact of_wrote hq hheavy (hq.setManyOne hfits hheavy)

end Batched

def lastStored (g : Config K V) (weight : Option Weight) (entries : List (K × V)) : Option (K × V) :=
  (entries.filter fun p => !heavy g weight p).getLast?

omit [DecidableEq K] in
theorem run_lastStored (f : Cache K V → K × V → Cache K V)
    (ok : Cache K V → K × V → Prop) (weight : Option Weight)
    (hstep : ∀ c p, c.toConfig = g → Batched c → ok c p → Written weight x c (f c p) p)
    {ps : List (K × V)} (hconfig : c.toConfig = g) (h : Batched c) (hok : Meets f ok c ps) :
    Batched (run f c ps) ∧ (lastStored g weight ps = none → entryOf (run f c ps) = entryOf c) ∧
      ∀ p ∈ lastStored g weight ps,
        entryOf (run f c ps) p.1 = some (some p.2, computeWeight g.weightFn p.2 weight, x) := by
  induction ps generalizing c with
  | nil => exact ⟨h, fun _ => rfl, by simp [lastStored]⟩
  | cons p ps ih =>
    obtain ⟨hfits, hrest⟩ := hok
    have hone := hstep c p hconfig h hfits
    obtain ⟨hbatched, hnone, hlast⟩ := ih (hone.config.trans hconfig) hone.batched hrest
    rw [run_cons]
    cases hheavy : heavy g weight p with
    | true =>
      have hsame : lastStored g weight (p :: ps) = lastStored g weight ps := by
        simp [lastStored, hheavy]
      rw [hsame]
      refine ⟨hbatched, fun hno => ?_, hlast⟩
      rw [hnone hno]
      apply hone.kept
      rw [hconfig]
      exact hheavy
    | false =>
      have hcons : lastStored g weight (p :: ps) = some ((lastStored g weight ps).getD p) := by
        simp [lastStored, hheavy, List.getLast?_cons]
      rw [hcons]
      refine ⟨hbatched, nofun, fun q hq => ?_⟩
      obtain rfl := Option.some.inj hq
      cases hno : lastStored g weight ps with
      | some q => exact hlast q hno
      | none =>
        rw [Option.getD_none, hnone hno, ← hconfig]
        apply hone.stored
        rw [hconfig]
        exact hheavy

/-- The two runs so far, where they give the same expiry. -/
inductive Alike (c c' : Cache K V) : Prop where
  | list (policy : c.policy ≠ .s3fifo) (same : flat c' = flat c)
  | queues (policy : c.policy = .s3fifo) (config : c'.toConfig = c.toConfig)
    (entries : entryOf c' = entryOf c) (log : c'.log = c.log)

namespace Alike

section
omit [DecidableEq K]

theorem refl (c : Cache K V) : Alike c c := by
  by_cases hpol : c.policy = .s3fifo
  · exact .queues hpol rfl rfl rfl
  · exact .list hpol rfl

theorem config (h : Alike c c') : c'.toConfig = c.toConfig := by
  cases h with
  | list hpol hflat => exact congrArg (fun f => f.ledger.config) hflat
  | queues hpol hconfig hentries hlog => exact hconfig

theorem log (h : Alike c c') : c'.log = c.log := by
  cases h with
  | list hpol hflat => exact congrArg (fun f => f.ledger.log) hflat
  | queues hpol hconfig hentries hlog => exact hlog

protected theorem entryOf (h : Alike c c') : entryOf c' = entryOf c := by
  have hconfig := h.config
  cases h with
  | list hpol hflat =>
    have hpol' : c'.policy ≠ .s3fifo := by
      rw [hconfig]
      exact hpol
    have hmap : c'.map = c.map := congrArg (fun f => f.ledger.map) hflat
    have hfields : c'.toFields = c.toFields := congrArg (fun f => f.ledger.fields) hflat
    funext key
    rw [entryOf, entryOf, resident_list hpol', resident_list hpol, hmap, hfields]
  | queues hpol hconfig hentries hlog => exact hentries

end

theorem write {weight : Option Weight} {p : K × V} (h : Alike c c') (hc : Batched c)
    (hc' : Batched c') (hfits : SetFits weight c p) (hfits' : SetManyFits weight c' p) :
    Alike (store c p.1 p.2 x weight).1 (setManyOne x weight c' p) := by
  have hconfig := h.config
  have hkept := (hc.store (x := x) hfits).config
  have hkept' := (hc'.setManyOne (x := x) hfits').config
  cases h with
  | list hpol hflat =>
    have hpol' : c'.policy ≠ .s3fifo := by
      rw [hconfig]
      exact hpol
    cases hc with
    | queues hq => exact absurd hq.policy hpol
    | list _ hw =>
      cases hc' with
      | queues hq => exact absurd hq.policy hpol'
      | list _ hw' =>
        refine .list ?_ ?_
        · rw [hkept]
          exact hpol
        · rw [(flat_store hw hpol hfits).1, (flat_setManyOne hw' hpol' hfits').1, hflat]
  | queues hpol _ hentries hlog =>
    have hpol' : c'.policy = .s3fifo := by
      rw [hconfig]
      exact hpol
    have hheavyIff : heavy c'.toConfig weight p = heavy c.toConfig weight p := by rw [hconfig]
    have hboth : entryOf (setManyOne x weight c' p) =
        entryOf (store c p.1 p.2 x weight).1 ∧
        (setManyOne x weight c' p).log = (store c p.1 p.2 x weight).1.log := by
      cases hheavy : heavy c.toConfig weight p with
      | true =>
        rw [store_heavy hheavy, setManyOne_heavy (hheavyIff.trans hheavy)]
        obtain ⟨cs, hcount⟩ := countWeightError_frame c p.2 weight
        obtain ⟨cs', hcount'⟩ := countWeightError_frame c' p.2 weight
        rw [hcount, hcount']
        refine ⟨hentries, ?_⟩
        show c'.log ++ _ = c.log ++ _
        rw [hlog]
      | false =>
        cases hc with
        | list hno _ => exact absurd hpol hno
        | queues hq =>
          cases hc' with
          | list hno _ => exact absurd hpol' hno
          | queues hq' =>
            have hsingle := hq.store (x := x) hfits hheavy
            have hbulk := hq'.setManyOne (x := x) hfits' (hheavyIff.trans hheavy)
            rw [hsingle.entries, hbulk.entries, hentries, hconfig, hsingle.log, hbulk.log, hlog]
            exact ⟨rfl, rfl⟩
    refine .queues ?_ (hkept'.trans (hconfig.trans hkept.symm)) hboth.1 hboth.2
    rw [hkept]
    exact hpol

end Alike

theorem setOne_ok
    (hx : expiresAtOf (ttl.getD c.defaultTTL) now = .ok x) :
    setOne ttl weight now c p = (store c p.1 p.2 x weight).1 := by
  simp only [setOne, step, set, hx, settleCall]

theorem setOne_error
    (hx : expiresAtOf (ttl.getD c.defaultTTL) now = .error e) : setOne ttl weight now c p = c := by
  simp only [setOne, step, set, hx, settleCall]

/-- With the same expiry the two runs stay alike. -/
theorem run_alike_setMany
    {ps : List (K × V)} (hx : expiresAtOf (ttl.getD g.defaultTTL) now = .ok x) (hconfig : c.toConfig = g)
    (halike : Alike c c') (hc : Batched c) (hc' : Batched c')
    (hsingle : Meets (setOne ttl weight now) (SetFits weight) c ps)
    (hbulk : Meets (setManyOne x weight) (SetManyFits weight) c' ps) :
    Alike (run (setOne ttl weight now) c ps) (run (setManyOne x weight) c' ps) ∧
      Batched (run (setManyOne x weight) c' ps) := by
  induction ps generalizing c c' with
  | nil => exact ⟨halike, hc'⟩
  | cons p ps ih =>
    have hone : setOne ttl weight now c p = (store c p.1 p.2 x weight).1 := by
      apply setOne_ok
      rw [hconfig]
      exact hx
    obtain ⟨hfits, hrest⟩ := hsingle
    obtain ⟨hfits', hrest'⟩ := hbulk
    have hstored := hc.store (x := x) hfits
    rw [hone] at hrest
    rw [run_cons, run_cons, hone]
    exact ih (hstored.config.trans hconfig) (halike.write hc hc' hfits hfits') hstored.batched
      (hc'.setManyOne hfits').batched hrest hrest'

protected theorem Batched.evictIfNeeded (h : Batched c) : entryOf (evictIfNeeded c) = entryOf c ∧
    (evictIfNeeded c).log = c.log := by
  have hbelow : Below c := by
    cases h with
    | list hpol hw => exact hw.below
    | queues hq => exact hq.below
  obtain ⟨candidate, hevict⟩ := evictIfNeeded_below hbelow
  rw [hevict]
  exact ⟨rfl, rfl⟩

omit [DecidableEq K] in
/-- The ttls of the two writes come to the same, or one is left out and the default counts. -/
theorem expiry_cases (c : Cache K V) (ttl : Option Ttl) (now : ℚ) :
    expiresAtOf (ttl.getD c.defaultTTL) now = expiresAtOf (ttl.getD .never) now ∨
      ttl = none ∧ ((c.defaultTTL = .invalid ∧ expiresAtOf (ttl.getD c.defaultTTL) now = .error ttlError) ∨
        c.defaultTTL ≠ .invalid ∧ ∃ x, expiresAtOf (ttl.getD c.defaultTTL) now = .ok x) := by
  cases ttl with
  | some t => exact Or.inl rfl
  | none =>
    refine Or.inr ⟨rfl, ?_⟩
    cases hd : c.defaultTTL with
    | never | ms t => exact Or.inr ⟨by simp, _, rfl⟩
    | invalid => exact Or.inl ⟨rfl, rfl⟩

/-- What `set` answers. -/
theorem set_threw_iff (p : K × V) :
    (∃ e, (step c (.set p.1 p.2 ttl weight now)).2 = .threw e) ↔
      ∃ e, expiresAtOf (ttl.getD c.defaultTTL) now = .error e := by
  simp only [step, set]
  cases expiresAtOf (ttl.getD c.defaultTTL) now <;> simp [settleCall]

theorem setMany_threw_iff
    : (∃ e, (step c (.setMany entries ttl weight now)).2 = .threw e) ↔
      ∃ e, expiresAtOf (ttl.getD .never) now = .error e := by
  simp only [step, setMany]
  cases expiresAtOf (ttl.getD .never) now <;> simp [settleCall, Except.map]

theorem setMany_ok {y : ℚ}
    (hy : expiresAtOf (ttl.getD .never) now = .ok y) : (step c (.setMany entries ttl weight now)).1 =
      evictIfNeeded (run (setManyOne y weight) c entries) := by
  simp only [step, setMany, hy]
  rfl

theorem setMany_error
    (hy : expiresAtOf (ttl.getD .never) now = .error e) :
    (step c (.setMany entries ttl weight now)).1 = c := by
  simp only [step, setMany, hy]
  rfl

theorem run_setOne_error
    (hx : expiresAtOf (ttl.getD c.defaultTTL) now = .error e) :
    run (setOne ttl weight now) c entries = c := by
  induction entries with
  | nil => rfl
  | cons p ps ih => rw [run_cons, setOne_error hx, ih]

/-- What weighs too much is rejected the same way by both. -/
theorem run_heavy
    {y : ℚ} (hx : expiresAtOf (ttl.getD g.defaultTTL) now = .ok x)
    (hconfig : c.toConfig = g) (h : Batched c) (hheavy : ∀ p ∈ entries, heavy g weight p = true) :
    run (setManyOne y weight) c entries = run (setOne ttl weight now) c entries ∧
      Batched (run (setManyOne y weight) c entries) := by
  induction entries generalizing c with
  | nil => exact ⟨rfl, h⟩
  | cons p ps ih =>
    obtain ⟨hp, hps⟩ := List.forall_mem_cons.mp hheavy
    have hx' : expiresAtOf (ttl.getD c.defaultTTL) now = .ok x := by
      rw [hconfig]
      exact hx
    rw [← hconfig] at hp
    have hrejected := h.reject (x := x) hp
    rw [run_cons, run_cons, setOne_ok hx', setManyOne_heavy hp, store_heavy hp]
    exact ih (hrejected.config.trans hconfig) hrejected.batched hps

omit [DecidableEq K] in
theorem batched_of (hsketch : c.sketch ≠ none → c.policy = .lru)
    (hindexed : c.policy = .s3fifo → Indexed c) (hbelow : Below c) : Batched c := by
  by_cases hpol : c.policy = .s3fifo
  · refine .queues ⟨hpol, ?_, hbelow, hindexed hpol⟩
    by_contra hs
    rw [hsketch hs] at hpol
    cases hpol
  · exact .list hpol ⟨hbelow, hsketch⟩

section
variable {entries : List (K × V)} {ttl : Option Ttl} {weight : Option Weight} {now : ℚ}

/-- What is stored last tells the expiries apart. -/
theorem BulkAgrees.sameExpiry (h : BulkAgrees c entries ttl weight now) (hbatched : Batched c)
    (hlimits : Unlimited c entries ttl weight now) : SameExpiry c entries ttl weight now := by
  by_contra hdiffers
  simp only [SameExpiry, not_or] at hdiffers
  obtain ⟨hne, hentries, hstored⟩ := hdiffers
  rcases expiry_cases c ttl now with heq | ⟨rfl, ⟨hinvalid, herror⟩ | ⟨hvalid, x, hx⟩⟩
  · exact hne heq
  · -- every `set` throws, and the batch is stored
    obtain ⟨p, ps, rfl⟩ := List.exists_cons_of_ne_nil hentries
    have hthrew := (h.threw p List.mem_cons_self).mpr ((set_threw_iff p).mpr ⟨_, herror⟩)
    obtain ⟨e, he⟩ := setMany_threw_iff.mp hthrew
    cases he
  · have hy : expiresAtOf ((none : Option Ttl).getD .never) now = .ok 0 := rfl
    obtain ⟨-, -, hlast⟩ := run_lastStored (x := x) (g := c.toConfig)
      (setOne none weight now) (SetFits weight) weight (fun d p hconfig hd hfits => by
        rw [setOne_ok (x := x) (by rw [hconfig]; exact hx)]
        exact hd.store hfits) rfl hbatched hlimits.single
    obtain ⟨hbatched', -, hlast'⟩ := run_lastStored (x := 0) (g := c.toConfig)
      (setManyOne 0 weight) (SetManyFits weight) weight (fun d p _ hd hfits => hd.setManyOne hfits) rfl hbatched (hlimits.bulk 0 (by rw [hy]; rfl))
    obtain ⟨p, hp, hlight⟩ : ∃ p ∈ entries, heavy c.toConfig weight p = false := by
      by_contra hall
      push Not at hall
      exact hstored ⟨hvalid, fun p hp => by simpa using hall p hp⟩
    obtain ⟨q, hq⟩ : ∃ q, lastStored c.toConfig weight entries = some q := by
      apply Option.ne_none_iff_exists'.mp
      intro hno
      have hnil := List.getLast?_eq_none_iff.mp hno
      have hmem : p ∈ entries.filter fun p => !heavy c.toConfig weight p := by
        simp [List.mem_filter, hp, hlight]
      rw [hnil] at hmem
      cases hmem
    have hsame := h.stored q.1
    rw [setMany_ok hy, hbatched'.evictIfNeeded.1, hlast q hq, hlast' q hq] at hsame
    simp only [Option.some.injEq, Prod.mk.injEq, true_and] at hsame
    rw [hx, hy, hsame] at hne
    exact hne rfl

theorem agrees_threw (entries : List (K × V)) (weight : Option Weight) (hsame : (∃ e, expiresAtOf (ttl.getD .never) now = .error e) ↔
    ∃ e, expiresAtOf (ttl.getD c.defaultTTL) now = .error e) (p : K × V) :
    (∃ e, (step c (.setMany entries ttl weight now)).2 = .threw e) ↔
      ∃ e, (step c (.set p.1 p.2 ttl weight now)).2 = .threw e := by
  rw [set_threw_iff, setMany_threw_iff]
  exact hsame

theorem agrees_of_eq (hbatched : Batched c) (hlimits : Unlimited c entries ttl weight now)
    (heq : expiresAtOf (ttl.getD c.defaultTTL) now = expiresAtOf (ttl.getD .never) now) :
    BulkAgrees c entries ttl weight now := by
  have hthrew : ∀ p ∈ entries, _ := fun p _ => agrees_threw entries weight (by rw [heq]) p
  cases hy : expiresAtOf (ttl.getD .never) now with
  | error e =>
    have hrun : run (setOne ttl weight now) c entries = c := run_setOne_error (heq.trans hy)
    refine ⟨fun key => ?_, ?_, hthrew⟩
    · rw [setMany_error hy, hrun]
    · rw [setMany_error hy, hrun]
  | ok y =>
    obtain ⟨halike, hbatched'⟩ := run_alike_setMany (g := c.toConfig) (heq.trans hy) rfl (.refl c)
      hbatched hbatched hlimits.single (hlimits.bulk y (by rw [hy]; rfl))
    refine ⟨fun key => ?_, ?_, hthrew⟩
    · rw [setMany_ok hy, hbatched'.evictIfNeeded.1, halike.entryOf]
    · rw [setMany_ok hy, hbatched'.evictIfNeeded.2, halike.log]

theorem SameExpiry.agrees (h : SameExpiry c entries ttl weight now) (hbatched : Batched c)
    (hlimits : Unlimited c entries ttl weight now) : BulkAgrees c entries ttl weight now := by
  rcases h with heq | rfl | ⟨hvalid, hheavy⟩
  · exact agrees_of_eq hbatched hlimits heq
  · have hsame : entryOf (step c (.setMany [] ttl weight now)).1 = entryOf c ∧
        (step c (.setMany [] ttl weight now)).1.log = c.log := by
      cases hy : expiresAtOf (ttl.getD .never) now with
      | error e =>
        rw [setMany_error hy]
        exact ⟨rfl, rfl⟩
      | ok y =>
        rw [setMany_ok hy]
        exact hbatched.evictIfNeeded
    exact ⟨congrFun hsame.1, hsame.2, by simp⟩
  · rcases expiry_cases c ttl now with heq | ⟨rfl, ⟨hinvalid, -⟩ | ⟨-, x, hx⟩⟩
    · exact agrees_of_eq hbatched hlimits heq
    · exact absurd hinvalid hvalid
    · have hy : expiresAtOf ((none : Option Ttl).getD .never) now = .ok 0 := rfl
      obtain ⟨hrun, hbatched'⟩ := run_heavy (g := c.toConfig) (y := 0) hx rfl hbatched hheavy
      refine ⟨fun key => ?_, ?_, fun p _ => agrees_threw entries weight (by rw [hx, hy]; simp) p⟩
      · rw [setMany_ok hy, hbatched'.evictIfNeeded.1, hrun]
      · rw [setMany_ok hy, hbatched'.evictIfNeeded.2, hrun]

end

end PerformanceHelpers.PowerCache
