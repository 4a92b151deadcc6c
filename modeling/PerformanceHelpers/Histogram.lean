import Mathlib.Data.Rat.Floor
import PerformanceHelpers.EntryMap

/- `PowerHistogram` (`src/helpers/powerHistogram.js`): a sketch that counts values by
   logarithmic buckets, over an exact ordered field `K`.

   `Math.log` and `Math.pow` are a parameter, and any functions: what is said here of the
   buckets holds whatever the index of a value is.

   What is proved:
     1. `Sketch.summarizes` — a sketch that was built by any records, queries, merges and
        revivals holds what its values come to: the counts of the buckets, of the zeros and of
        the infinities, the sum, the least and the greatest.
     2. `merge_homomorphism` — so a merge is the sketch of both lists, in either order, and a
        sketch that went through JSON answers every query as it did. -/
namespace PerformanceHelpers.Histogram

/-- A hundred percent, as a numeral of any ordered field. -/
instance instAtLeastTwoPercent : Nat.AtLeastTwo 100 := ⟨by decide⟩

/-- A number as JavaScript has them. -/
inductive Value (K : Type) where
  | finite (x : K)
  | infinity
  | negInfinity
  | nan
  deriving DecidableEq

/-- `a < b`. -/
def Value.lt {K : Type} [LinearOrder K] : Value K → Value K → Bool
  | .nan, _ | _, .nan => false
  | .finite x, .finite y => x < y
  | _, .negInfinity => false
  | .negInfinity, _ => true
  | .infinity, _ => false
  | .finite _, .infinity => true

/-- `Math.log` and `Math.pow`. -/
structure Maths (K : Type) where
  log : K → K
  pow : K → ℤ → K

structure Order where
  indices : List ℤ
  cumulative : List ℕ
  deriving DecidableEq

structure Histogram (K : Type) where
  alpha : K
  gamma : K
  logGamma : K
  minValue : K
  maxValue : Value K
  buckets : List (ℤ × ℕ)
  zeroCount : ℕ
  infCount : ℕ
  count : ℕ
  sum : K
  sumCompensation : K
  min : Value K
  max : Value K
  outOfRangeCount : ℕ
  belowRangeCount : ℕ
  /-- `_order`. -/
  order : Option Order

inductive Failure (K : Type) where
  | throws (error : String)
  /-- `relativeAccuracy mismatch (mine vs theirs)`. -/
  | mismatch (mine theirs : K)
  deriving DecidableEq

structure Options (K : Type) where
  relativeAccuracy : Option (Value K) := none
  maxValue : Option (Value K) := none
  minValue : Option (Value K) := none

section
variable {K : Type} [Field K] [LinearOrder K] (m : Maths K)

/-- The constructor. -/
def new (o : Options K) : Except (Failure K) (Histogram K) :=
  match o.relativeAccuracy.getD (.finite (1 / 100)) with
  | .finite alpha =>
    if alpha ≤ 0 ∨ 1 ≤ alpha then
      .error (.throws "PowerHistogram: `relativeAccuracy` must be a number in (0, 1) exclusive")
    else
      let gamma := (1 + alpha) / (1 - alpha)
      .ok
        { alpha, gamma, logGamma := m.log gamma
          minValue := match o.minValue.getD (.finite 0) with
            | .finite x => max 0 x
            | _ => 0
          maxValue := match o.maxValue.getD (.finite 10000) with
            | .finite x => .finite x
            | _ => .infinity
          buckets := [], zeroCount := 0, infCount := 0, count := 0, sum := 0, sumCompensation := 0
          min := .infinity, max := .negInfinity, outOfRangeCount := 0, belowRangeCount := 0
          order := none }
  | _ => .error (.throws "PowerHistogram: `relativeAccuracy` must be a number in (0, 1) exclusive")

def addToSum (h : Histogram K) (n : K) : Histogram K :=
  let t := h.sum + n
  { h with
    sumCompensation := h.sumCompensation + if |n| ≤ |h.sum| then h.sum - t + n else n - t + h.sum
    sum := t }

/-- `sum`. -/
def Histogram.total (h : Histogram K) : K := h.sum + h.sumCompensation

def reset (h : Histogram K) : Histogram K :=
  { h with
    buckets := [], zeroCount := 0, infCount := 0, count := 0, sum := 0, sumCompensation := 0
    min := .infinity, max := .negInfinity, outOfRangeCount := 0, belowRangeCount := 0, order := none }

def lower (bound n : Value K) : Value K := if n.lt bound then n else bound

def higher (bound n : Value K) : Value K := if bound.lt n then n else bound

variable [FloorRing K]

def index (h : Histogram K) (v : K) : ℤ := ⌈m.log v / h.logGamma⌉

/-- `_value`. -/
def valueAt (h : Histogram K) (i : ℤ) : K := 2 * m.pow h.gamma i / (1 + h.gamma)

def recordPositive (h : Histogram K) (x : K) : Histogram K :=
  let h := addToSum h x
  { h with
    min := lower h.min (.finite x)
    max := higher h.max (.finite x)
    outOfRangeCount := if h.maxValue.lt (.finite x) then h.outOfRangeCount + 1 else h.outOfRangeCount
    belowRangeCount := if !h.maxValue.lt (.finite x) && decide (x < h.minValue) then h.belowRangeCount + 1
      else h.belowRangeCount
    buckets := EntryMap.add (index m h x) 1 h.buckets
    order := none }

def record (h : Histogram K) (value : Value K) : Histogram K × Except (Failure K) Unit :=
  let refused := (h, .error (.throws <| "PowerHistogram.record() requires a finite non-negative number. " ++
    "This class is scoped to latency and other non-negative measurements; " ++
    "for a signed quantity, offset it first — record(v - baseline) for a " ++
    "delta against a known baseline, or record(Math.abs(v)) for a magnitude."))
  match value with
  | .nan | .negInfinity => refused
  | .infinity => ({ h with count := h.count + 1, infCount := h.infCount + 1 }, .ok ())
  | .finite x =>
    if x < 0 then refused
    else
      let h := { h with count := h.count + 1 }
      if x = 0 then
        let h := addToSum { h with zeroCount := h.zeroCount + 1 } 0
        ({ h with min := lower h.min (.finite 0), max := higher h.max (.finite 0) }, .ok ())
      else (recordPositive m h x, .ok ())

/-! ## Queries -/

def orderOf (buckets : List (ℤ × ℕ)) : Order :=
  let indices := (buckets.map Prod.fst).mergeSort fun a b => decide (a ≤ b)
  ⟨indices, indices.scanl (fun before i => before + EntryMap.count i buckets) 0⟩

def bucketOrder (h : Histogram K) : Histogram K × Order :=
  match h.order with
  | some order => (h, order)
  | none => ({ h with order := some (orderOf h.buckets) }, orderOf h.buckets)

/-- The binary search of both queries: the first position that meets `p`, or `hi`. Every turn
halves what is between, so `hi` turns are enough. -/
def search (p : ℕ → Bool) : ℕ → ℕ → ℕ → ℕ
  | 0, lo, _ => lo
  | turns + 1, lo, hi =>
    if lo < hi then
      let mid := (lo + hi) / 2
      if p mid then search p turns lo mid else search p turns (mid + 1) hi
    else lo

def clamp (h : Histogram K) (value : Value K) : Value K :=
  if h.count = 0 then value
  else if value.lt h.min then h.min
  else if h.max.lt value then h.max
  else value

def valueOfRank (h : Histogram K) (target : K) : Histogram K × Value K :=
  let (h, order) := bucketOrder h
  let reaches := fun mid => decide (target ≤ ((h.zeroCount + order.cumulative.getD (mid + 1) 0 : ℕ) : K))
  let lo := search reaches order.indices.length 0 order.indices.length
  (h, match order.indices[lo]? with
    | some i => clamp h (.finite (valueAt m h i))
    | none => if 0 < h.infCount then .infinity else h.max)

omit [FloorRing K] in
/-- A fraction up to 1 is of 100, and what is above 100 is 100. -/
def percent (q : K) : K := min 100 (if q ≤ 1 then q * 100 else q)

def percentile (h : Histogram K) (quantile : Value K) :
    Histogram K × Except (Failure K) (Option (Value K)) :=
  if h.count = 0 then (h, .ok none)
  else
    let refused := (h, .error (.throws "PowerHistogram.percentile() requires a non-negative number"))
    match quantile with
    | .finite q =>
      if q < 0 then refused
      else
        let target := percent q / 100 * h.count
        if percent q = 0 then (h, .ok (some h.min))
        else if 0 < h.zeroCount ∧ target ≤ h.zeroCount then (h, .ok (some (.finite 0)))
        else
          let r := valueOfRank m h target
          (r.1, .ok (some r.2))
    | _ => refused

def rankOf (h : Histogram K) (t : K) : Histogram K × K :=
  let (h, order) := bucketOrder h
  let k := index m h t
  let lo := search (fun mid => decide (k ≤ order.indices.getD mid 0)) order.indices.length 0
    order.indices.length
  let total : K := ((h.zeroCount + order.cumulative.getD lo 0 : ℕ) : K)
  let share := (m.log t - (k - 1) * h.logGamma) / h.logGamma
  (h, if order.indices[lo]? = some k then
      total + EntryMap.count k h.buckets * min 1 (max 0 share)
    else total)

def countAtOrBelow (h : Histogram K) (value : Value K) : Histogram K × Except (Failure K) K :=
  match value with
  | .nan => (h, .error (.throws "PowerHistogram.countAtOrBelow() requires a number"))
  | .negInfinity => (h, .ok 0)
  | .infinity => (h, .ok h.count)
  | .finite t =>
    if h.count = 0 ∨ t < 0 then (h, .ok 0)
    else if t = 0 then (h, .ok h.zeroCount)
    else
      let r := rankOf m h t
      (r.1, .ok r.2)

/-! ## Sketches that travel -/

/-- What `toJSON` gives, and what is read of it: `none` is `null`. -/
structure Json (K : Type) where
  relativeAccuracy : Option K
  count : ℕ
  sum : Option K
  min : Option (Value K)
  max : Option (Value K)
  zeroCount : ℕ
  infCount : ℕ
  outOfRangeCount : ℕ
  belowRangeCount : ℕ
  buckets : List (ℤ × ℕ)

omit [FloorRing K] in
def toJSON (h : Histogram K) : Json K :=
  { relativeAccuracy := some h.alpha
    count := h.count
    sum := some h.total
    min := if h.count = 0 then none else some h.min
    max := if h.count = 0 then none else some h.max
    zeroCount := h.zeroCount
    infCount := h.infCount
    outOfRangeCount := h.outOfRangeCount
    belowRangeCount := h.belowRangeCount
    buckets := EntryMap.sorted h.buckets }

/-- A number in JSON text: `null` when it is not finite. -/
def Value.throughText : Value K → Option (Value K)
  | .finite x => some (.finite x)
  | _ => none

/-- `JSON.parse` of `JSON.stringify`. -/
def Json.throughText (j : Json K) : Json K :=
  { j with min := j.min.bind Value.throughText, max := j.max.bind Value.throughText }

structure Fields (K : Type) where
  alpha : K
  count : ℕ
  sum : K
  min : Value K
  max : Value K
  zeroCount : ℕ
  infCount : ℕ
  outOfRangeCount : ℕ
  belowRangeCount : ℕ
  buckets : List (ℤ × ℕ)

/-- `sketchFields` of an instance. -/
def sketchFields (h : Histogram K) : Fields K :=
  { alpha := h.alpha, count := h.count, sum := h.total, min := h.min, max := h.max
    zeroCount := h.zeroCount, infCount := h.infCount, outOfRangeCount := h.outOfRangeCount
    belowRangeCount := h.belowRangeCount, buckets := h.buckets }

/-- `sketchFields` of a `toJSON()` result: nothing, where `isHistogramSketch` does not hold. -/
def jsonFields (j : Json K) : Option (Fields K) :=
  match j.relativeAccuracy, j.sum with
  | some alpha, some sum => some
    { alpha, count := j.count, sum, min := j.min.getD .infinity, max := j.max.getD .negInfinity
      zeroCount := j.zeroCount, infCount := j.infCount, outOfRangeCount := j.outOfRangeCount
      belowRangeCount := j.belowRangeCount, buckets := j.buckets }
  | _, _ => none

/-- `merge`, of what is read of the other. -/
def mergeFields (h : Histogram K) (src : Fields K) : Except (Failure K) (Histogram K) :=
  if src.alpha ≠ h.alpha then .error (.mismatch h.alpha src.alpha)
  else
    let h := addToSum
      { h with
        buckets := EntryMap.addAll h.buckets src.buckets
        zeroCount := h.zeroCount + src.zeroCount
        infCount := h.infCount + src.infCount
        count := h.count + src.count } src.sum
    .ok
      { h with
        outOfRangeCount := h.outOfRangeCount + src.outOfRangeCount
        belowRangeCount := h.belowRangeCount + src.belowRangeCount
        min := if 0 < src.count then lower h.min src.min else h.min
        max := if 0 < src.count then higher h.max src.max else h.max
        order := none }

/-- `merge` of an instance. -/
def merge (h other : Histogram K) : Except (Failure K) (Histogram K) := mergeFields h (sketchFields other)

/-- `merge` of a `toJSON()` result. -/
def mergeJson (h : Histogram K) (other : Json K) : Except (Failure K) (Histogram K) :=
  match jsonFields other with
  | some src => mergeFields h src
  | none => .error (.throws "PowerHistogram.merge() expects a PowerHistogram or a toJSON() result")

def fromJSON (j : Json K) : Except (Failure K) (Histogram K) :=
  match jsonFields j with
  | none => .error (.throws "PowerHistogram.fromJSON() expects a toJSON() result")
  | some f =>
    match new m { relativeAccuracy := some (.finite f.alpha) } with
    | .error e => .error e
    | .ok h => .ok
      { h with
        count := f.count, sum := f.sum, min := f.min, max := f.max, zeroCount := f.zeroCount
        infCount := f.infCount, outOfRangeCount := f.outOfRangeCount
        belowRangeCount := f.belowRangeCount
        buckets := f.buckets.foldl (fun b e => EntryMap.set e.1 e.2 b) [], order := none }

end


/-! ## What the values come to -/

/-- The finite ones of the values. -/
def finites {K : Type} (vs : List (Value K)) : List K :=
  vs.filterMap fun
    | .finite x => some x
    | _ => none

section
variable {K : Type} {vs ws : List (Value K)}

@[simp] theorem finites_nil : finites ([] : List (Value K)) = [] := rfl

@[simp] theorem finites_append : finites (vs ++ ws) = finites vs ++ finites ws := List.filterMap_append

@[simp] theorem finites_finite (x : K) : finites [Value.finite x] = [x] := rfl

@[simp] theorem finites_infinity : finites [(Value.infinity : Value K)] = [] := rfl

variable [LinearOrder K] {xs ys : List K} {u v : Value K}

def Lowest (xs : List K) (v : Value K) : Prop :=
  (xs = [] ∧ v = .infinity) ∨ ∃ x ∈ xs, v = .finite x ∧ ∀ y ∈ xs, x ≤ y

def Highest (xs : List K) (v : Value K) : Prop :=
  (xs = [] ∧ v = .negInfinity) ∨ ∃ x ∈ xs, v = .finite x ∧ ∀ y ∈ xs, y ≤ x

theorem Lowest.nil : Lowest ([] : List K) .infinity := Or.inl ⟨rfl, rfl⟩

theorem Highest.nil : Highest ([] : List K) .negInfinity := Or.inl ⟨rfl, rfl⟩

theorem Lowest.single (x : K) : Lowest [x] (.finite x) := Or.inr ⟨x, by simp, rfl, by simp⟩

theorem Highest.single (x : K) : Highest [x] (.finite x) := Or.inr ⟨x, by simp, rfl, by simp⟩

theorem lower_infinity (v : Value K) : lower v .infinity = v := by
  cases v <;> rfl

theorem higher_negInfinity (v : Value K) : higher v .negInfinity = v := by
  cases v <;> rfl

theorem Lowest.append (h : Lowest xs u) (h' : Lowest ys v) : Lowest (xs ++ ys) (lower u v) := by
  rcases h with ⟨rfl, rfl⟩ | ⟨x, hx, rfl, hle⟩
  · rcases h' with ⟨rfl, rfl⟩ | ⟨y, hy, rfl, hle'⟩
    · exact Lowest.nil
    · exact Or.inr ⟨y, hy, rfl, hle'⟩
  · rcases h' with ⟨rfl, rfl⟩ | ⟨y, hy, rfl, hle'⟩
    · rw [List.append_nil]
      exact Or.inr ⟨x, hx, rfl, hle⟩
    · by_cases hlt : y < x
      · refine Or.inr ⟨y, List.mem_append_right _ hy, by simp [lower, Value.lt, hlt], fun z hz => ?_⟩
        rcases List.mem_append.mp hz with hz | hz
        · exact hlt.le.trans (hle z hz)
        · exact hle' z hz
      · refine Or.inr ⟨x, List.mem_append_left _ hx, by simp [lower, Value.lt, hlt], fun z hz => ?_⟩
        rcases List.mem_append.mp hz with hz | hz
        · exact hle z hz
        · exact (not_lt.mp hlt).trans (hle' z hz)

theorem Highest.append (h : Highest xs u) (h' : Highest ys v) : Highest (xs ++ ys) (higher u v) := by
  rcases h with ⟨rfl, rfl⟩ | ⟨x, hx, rfl, hle⟩
  · rcases h' with ⟨rfl, rfl⟩ | ⟨y, hy, rfl, hle'⟩
    · exact Highest.nil
    · exact Or.inr ⟨y, hy, rfl, hle'⟩
  · rcases h' with ⟨rfl, rfl⟩ | ⟨y, hy, rfl, hle'⟩
    · rw [List.append_nil]
      exact Or.inr ⟨x, hx, rfl, hle⟩
    · by_cases hlt : x < y
      · refine Or.inr ⟨y, List.mem_append_right _ hy, by simp [higher, Value.lt, hlt], fun z hz => ?_⟩
        rcases List.mem_append.mp hz with hz | hz
        · exact (hle z hz).trans hlt.le
        · exact hle' z hz
      · refine Or.inr ⟨x, List.mem_append_left _ hx, by simp [higher, Value.lt, hlt], fun z hz => ?_⟩
        rcases List.mem_append.mp hz with hz | hz
        · exact hle z hz
        · exact (hle' z hz).trans (not_lt.mp hlt)

theorem Lowest.throughText (hv : Lowest xs v) :
    v.throughText.getD .infinity = v := by
  rcases hv with ⟨-, rfl⟩ | ⟨x, -, rfl, -⟩ <;> rfl

theorem Highest.throughText (hv : Highest xs v) :
    v.throughText.getD .negInfinity = v := by
  rcases hv with ⟨-, rfl⟩ | ⟨x, -, rfl, -⟩ <;> rfl

/-- There is one least, whatever the order of the numbers. -/
theorem Lowest.unique (h : Lowest xs u) (h' : Lowest ys v) (hp : xs.Perm ys) : u = v := by
  rcases h with ⟨rfl, rfl⟩ | ⟨x, hx, rfl, hle⟩
  · rcases h' with ⟨-, rfl⟩ | ⟨y, hy, -, -⟩
    · rfl
    · exact absurd (hp.mem_iff.mpr hy) List.not_mem_nil
  · rcases h' with ⟨rfl, -⟩ | ⟨y, hy, rfl, hle'⟩
    · exact absurd (hp.mem_iff.mp hx) List.not_mem_nil
    · exact congrArg _ (le_antisymm (hle y (hp.mem_iff.mpr hy)) (hle' x (hp.mem_iff.mp hx)))

theorem Highest.unique (h : Highest xs u) (h' : Highest ys v) (hp : xs.Perm ys) : u = v := by
  rcases h with ⟨rfl, rfl⟩ | ⟨x, hx, rfl, hle⟩
  · rcases h' with ⟨-, rfl⟩ | ⟨y, hy, -, -⟩
    · rfl
    · exact absurd (hp.mem_iff.mpr hy) List.not_mem_nil
  · rcases h' with ⟨rfl, -⟩ | ⟨y, hy, rfl, hle'⟩
    · exact absurd (hp.mem_iff.mp hx) List.not_mem_nil
    · exact congrArg _ (le_antisymm (hle' x (hp.mem_iff.mp hx)) (hle y (hp.mem_iff.mpr hy)))

end

structure Cached {K : Type} (h h' : Histogram K) : Prop where
  eq : h' = { h with order := h'.order }
  order : h'.order = h.order ∨ h'.order = some (orderOf h.buckets)

theorem Cached.refl {K : Type} (h : Histogram K) : Cached h h := ⟨rfl, Or.inl rfl⟩

section
variable {K : Type} [Field K] [LinearOrder K]

/-- What is summed is exact. -/
theorem addToSum_total (h : Histogram K) (n : K) : (addToSum h n).total = h.total + n := by
  unfold addToSum Histogram.total
  dsimp only
  split <;> ring

omit [Field K] [LinearOrder K] in
theorem bucketOrder_cached (h : Histogram K) : Cached h (bucketOrder h).1 := by
  unfold bucketOrder
  split
  · exact Cached.refl h
  · exact ⟨rfl, Or.inr rfl⟩

end

section
variable {K : Type} [Field K] [LinearOrder K] [FloorRing K] {m : Maths K}

def inBucket (m : Maths K) (logGamma : K) (xs : List K) (i : ℤ) : ℕ :=
  xs.countP fun x => x ≠ 0 ∧ ⌈m.log x / logGamma⌉ = i

structure Summarizes (m : Maths K) (h : Histogram K) (vs : List (Value K)) : Prop where
  alpha_pos : 0 < h.alpha
  alpha_lt : h.alpha < 1
  gamma : h.gamma = (1 + h.alpha) / (1 - h.alpha)
  logGamma : h.logGamma = m.log h.gamma
  buckets : EntryMap.Tallies h.buckets (inBucket m h.logGamma (finites vs))
  zeroCount : h.zeroCount = (finites vs).countP (· = 0)
  infCount : h.infCount = vs.countP fun v => decide (v = .infinity)
  count : h.count = vs.length
  total : h.total = (finites vs).sum
  min : Lowest (finites vs) h.min
  max : Highest (finites vs) h.max
  order : ∀ o, h.order = some o → o = orderOf h.buckets

variable {h h' r : Histogram K} {vs ws : List (Value K)}

theorem inBucket_append (logGamma : K) (xs ys : List K) (i : ℤ) :
    inBucket m logGamma (xs ++ ys) i = inBucket m logGamma xs i + inBucket m logGamma ys i :=
  List.countP_append

theorem inBucket_zero (logGamma : K) (i : ℤ) : inBucket m logGamma [0] i = 0 := by
  simp [inBucket]

theorem inBucket_single {x : K} (hx : x ≠ 0) (logGamma : K) (i : ℤ) :
    inBucket m logGamma [x] i = if i = ⌈m.log x / logGamma⌉ then 1 else 0 := by
  simp [inBucket, List.countP_cons, hx, eq_comm]

theorem Summarizes.new {o : Options K} (hnew : Histogram.new m o = .ok h) : Summarizes m h [] := by
  unfold Histogram.new at hnew
  split at hnew
  swap
  · cases hnew
  split at hnew
  · cases hnew
  next hrange =>
  rw [not_or, not_le, not_le] at hrange
  cases hnew
  exact ⟨hrange.1, hrange.2, rfl, rfl, EntryMap.Tallies.nil, rfl, rfl, rfl, add_zero 0, Lowest.nil,
    Highest.nil, fun _ ho => nomatch ho⟩

theorem Summarizes.reset (hs : Summarizes m h vs) : Summarizes m (reset h) [] :=
  ⟨hs.alpha_pos, hs.alpha_lt, hs.gamma, hs.logGamma, EntryMap.Tallies.nil, rfl, rfl, rfl, add_zero 0,
    Lowest.nil, Highest.nil, fun _ ho => nomatch ho⟩

structure Gains (m : Maths K) (h r : Histogram K) (ws : List (Value K)) : Prop where
  alpha : r.alpha = h.alpha
  gamma : r.gamma = h.gamma
  logGamma : r.logGamma = h.logGamma
  buckets : ∀ f, EntryMap.Tallies h.buckets f →
    EntryMap.Tallies r.buckets fun i => f i + inBucket m h.logGamma (finites ws) i
  zeroCount : r.zeroCount = h.zeroCount + (finites ws).countP (· = 0)
  infCount : r.infCount = h.infCount + ws.countP fun v => decide (v = .infinity)
  count : r.count = h.count + ws.length
  total : r.total = h.total + (finites ws).sum
  min : ∃ v, Lowest (finites ws) v ∧ r.min = lower h.min v
  max : ∃ v, Highest (finites ws) v ∧ r.max = higher h.max v
  order : r.order = none ∨ r.order = h.order ∧ r.buckets = h.buckets

theorem Summarizes.gain (hs : Summarizes m h vs) (hg : Gains m h r ws) : Summarizes m r (vs ++ ws) where
  alpha_pos := hg.alpha ▸ hs.alpha_pos
  alpha_lt := hg.alpha ▸ hs.alpha_lt
  gamma := by rw [hg.gamma, hg.alpha, hs.gamma]
  logGamma := by rw [hg.logGamma, hg.gamma, hs.logGamma]
  buckets := by
    refine (hg.buckets _ hs.buckets).congr fun i => ?_
    rw [finites_append, inBucket_append, hg.logGamma]
  zeroCount := by rw [hg.zeroCount, hs.zeroCount, finites_append, List.countP_append]
  infCount := by rw [hg.infCount, hs.infCount, List.countP_append]
  count := by rw [hg.count, hs.count, List.length_append]
  total := by rw [hg.total, hs.total, finites_append, List.sum_append]
  min := by
    obtain ⟨v, hv, hmin⟩ := hg.min
    rw [hmin, finites_append]
    exact hs.min.append hv
  max := by
    obtain ⟨v, hv, hmax⟩ := hg.max
    rw [hmax, finites_append]
    exact hs.max.append hv
  order := by
    intro o ho
    rcases hg.order with hnone | ⟨hsame, hbuckets⟩
    · rw [hnone] at ho
      cases ho
    · rw [hbuckets]
      exact hs.order o (hsame ▸ ho)

/-! ## Records -/

theorem recordPositive_gains {x : K} (hx : x ≠ 0) :
    Gains m h (recordPositive m { h with count := h.count + 1 } x) [.finite x] where
  alpha := rfl
  gamma := rfl
  logGamma := rfl
  buckets f hf := by
    refine (hf.add one_pos (index m h x)).congr fun i => ?_
    rw [finites_finite, inBucket_single hx]
    rfl
  zeroCount := by simp [hx, recordPositive, addToSum]
  infCount := by simp [recordPositive, addToSum]
  count := rfl
  total := by
    rw [finites_finite, List.sum_singleton]
    exact addToSum_total { h with count := h.count + 1 } x
  min := ⟨_, Lowest.single x, rfl⟩
  max := ⟨_, Highest.single x, rfl⟩
  order := Or.inl rfl

theorem recordZero_gains :
    Gains m h
      (let h := addToSum { h with count := h.count + 1, zeroCount := h.zeroCount + 1 } 0
       { h with min := lower h.min (.finite 0), max := higher h.max (.finite 0) })
      [.finite 0] where
  alpha := rfl
  gamma := rfl
  logGamma := rfl
  buckets f hf := by
    refine hf.congr fun i => ?_
    rw [finites_finite, inBucket_zero, Nat.add_zero]
  zeroCount := by simp [addToSum]
  infCount := by simp [addToSum]
  count := rfl
  total := by
    rw [finites_finite, List.sum_singleton]
    exact addToSum_total { h with count := h.count + 1, zeroCount := h.zeroCount + 1 } 0
  min := ⟨_, Lowest.single 0, rfl⟩
  max := ⟨_, Highest.single 0, rfl⟩
  order := Or.inr ⟨rfl, rfl⟩

theorem recordInfinity_gains :
    Gains m h { h with count := h.count + 1, infCount := h.infCount + 1 } [.infinity] where
  alpha := rfl
  gamma := rfl
  logGamma := rfl
  buckets f hf := hf
  zeroCount := rfl
  infCount := by simp
  count := rfl
  total := (add_zero _).symm
  min := ⟨_, Lowest.nil, (lower_infinity _).symm⟩
  max := ⟨_, Highest.nil, (higher_negInfinity _).symm⟩
  order := Or.inr ⟨rfl, rfl⟩

theorem record_gains {v : Value K} (hok : (record m h v).2 = .ok ()) : Gains m h (record m h v).1 [v] := by
  unfold record at hok ⊢
  cases v with
  | nan | negInfinity => cases hok
  | infinity => exact recordInfinity_gains
  | finite x =>
    dsimp only at hok ⊢
    split at hok
    · cases hok
    next hneg =>
    rw [if_neg hneg]
    split
    · next hx =>
      subst hx
      exact recordZero_gains
    · next hx => exact recordPositive_gains hx

/-! ## Queries -/

omit [FloorRing K] in
theorem percentile_cached (m : Maths K) (h : Histogram K) (q : Value K) : Cached h (percentile m h q).1 := by
  unfold percentile
  split
  · exact Cached.refl h
  cases q with
  | finite q =>
    dsimp only
    split
    · exact Cached.refl h
    split
    · exact Cached.refl h
    split
    · exact Cached.refl h
    · exact bucketOrder_cached h
  | _ => exact Cached.refl h

theorem countAtOrBelow_cached (m : Maths K) (h : Histogram K) (t : Value K) : Cached h (countAtOrBelow m h t).1 := by
  unfold countAtOrBelow
  cases t with
  | finite t =>
    dsimp only
    split
    · exact Cached.refl h
    split
    · exact Cached.refl h
    · exact bucketOrder_cached h
  | _ => exact Cached.refl h

theorem Summarizes.cached (hs : Summarizes m h vs) (hc : Cached h h') : Summarizes m h' vs := by
  rw [hc.eq]
  refine ⟨hs.alpha_pos, hs.alpha_lt, hs.gamma, hs.logGamma, hs.buckets, hs.zeroCount, hs.infCount, hs.count,
    hs.total, hs.min, hs.max, fun o ho => ?_⟩
  rcases hc.order with horder | horder
  · exact hs.order o (horder ▸ ho)
  · exact (Option.some.inj (horder.symm.trans ho)).symm

/-! ## Merges -/

structure Reads (m : Maths K) (f : Fields K) (logGamma : K) (ws : List (Value K)) : Prop where
  buckets : EntryMap.Tallies f.buckets (inBucket m logGamma (finites ws))
  zeroCount : f.zeroCount = (finites ws).countP (· = 0)
  infCount : f.infCount = ws.countP fun v => decide (v = .infinity)
  count : f.count = ws.length
  sum : f.sum = (finites ws).sum
  min : Lowest (finites ws) f.min
  max : Highest (finites ws) f.max

theorem Reads.empty {f : Fields K} {logGamma : K} (hr : Reads m f logGamma ws) (hcount : ¬0 < f.count) :
    f.min = .infinity ∧ f.max = .negInfinity := by
  obtain rfl : ws = [] := List.length_eq_zero_iff.mp (by rw [← hr.count]; omega)
  exact ⟨hr.min.unique Lowest.nil (List.Perm.refl _), hr.max.unique Highest.nil (List.Perm.refl _)⟩

/-- The bounds of an empty sketch change nothing, whether they are looked at or not. -/
theorem Reads.lower_min {f : Fields K} {logGamma : K} (hr : Reads m f logGamma ws) (v : Value K) :
    (if 0 < f.count then lower v f.min else v) = lower v f.min := by
  split
  · rfl
  · next hcount => rw [(hr.empty hcount).1, lower_infinity]

theorem Reads.higher_max {f : Fields K} {logGamma : K} (hr : Reads m f logGamma ws) (v : Value K) :
    (if 0 < f.count then higher v f.max else v) = higher v f.max := by
  split
  · rfl
  · next hcount => rw [(hr.empty hcount).2, higher_negInfinity]

theorem mergeFields_gains {f : Fields K} (hr : Reads m f h.logGamma ws) (hok : mergeFields h f = .ok r) :
    Gains m h r ws := by
  unfold mergeFields at hok
  split at hok
  · cases hok
  cases hok
  exact
    { alpha := rfl, gamma := rfl, logGamma := rfl
      buckets := fun g hg => hg.addAll hr.buckets
      zeroCount := congrArg (h.zeroCount + ·) hr.zeroCount
      infCount := congrArg (h.infCount + ·) hr.infCount
      count := congrArg (h.count + ·) hr.count
      total := by
        rw [← hr.sum]
        exact addToSum_total
          { h with
            buckets := EntryMap.addAll h.buckets f.buckets, zeroCount := h.zeroCount + f.zeroCount
            infCount := h.infCount + f.infCount, count := h.count + f.count } f.sum
      min := ⟨f.min, hr.min, hr.lower_min h.min⟩
      max := ⟨f.max, hr.max, hr.higher_max h.max⟩
      order := Or.inl rfl }

theorem Summarizes.reads (hs : Summarizes m h ws) : Reads m (sketchFields h) h.logGamma ws :=
  ⟨hs.buckets, hs.zeroCount, hs.infCount, hs.count, hs.total, hs.min, hs.max⟩

/-- An image of a sketch: what `toJSON` gives, as it is or through text. -/
def Image (h : Histogram K) (j : Json K) : Prop := j = toJSON h ∨ j = (toJSON h).throughText

theorem Image.fields {j : Json K} (hj : Image h j) (hs : Summarizes m h ws) :
    jsonFields j = some { sketchFields h with buckets := EntryMap.sorted h.buckets } := by
  have hempty : h.count = 0 → h.min = .infinity ∧ h.max = .negInfinity := by
    intro h0
    exact hs.reads.empty (by simp [sketchFields, h0])
  have hmin := hs.min.throughText
  have hmax := hs.max.throughText
  rcases hj with rfl | rfl
  · by_cases h0 : h.count = 0
    · simp [jsonFields, toJSON, sketchFields, h0, hempty h0]
    · simp [jsonFields, toJSON, sketchFields, h0]
  · by_cases h0 : h.count = 0
    · simp [jsonFields, toJSON, Json.throughText, sketchFields, h0, hempty h0]
    · simp [jsonFields, toJSON, Json.throughText, sketchFields, h0, hmin, hmax]

theorem Image.reads {j : Json K} (hj : Image h j) (hs : Summarizes m h ws) : ∃ f, jsonFields j = some f ∧
    f.alpha = h.alpha ∧ f.buckets = EntryMap.sorted h.buckets ∧ Reads m f h.logGamma ws := by
  refine ⟨_, hj.fields hs, rfl, rfl, ?_⟩
  exact { hs.reads with buckets := hs.buckets.of_perm (EntryMap.sorted_perm _).symm }

/-- Sketches of one accuracy have the buckets at the same places. -/
theorem Summarizes.logGamma_eq (hs : Summarizes m h vs) (hs' : Summarizes m h' ws) (halpha : h'.alpha = h.alpha) :
    h'.logGamma = h.logGamma := by
  rw [hs.logGamma, hs'.logGamma, hs.gamma, hs'.gamma, halpha]

theorem Summarizes.mergeFields {f : Fields K} (hs : Summarizes m h vs) (hs' : Summarizes m h' ws)
    (hf : f.alpha = h'.alpha) (hr : Reads m f h'.logGamma ws) (hok : Histogram.mergeFields h f = .ok r) :
    Summarizes m r (vs ++ ws) := by
  have halpha : f.alpha = h.alpha := by
    by_contra hne
    rw [Histogram.mergeFields, if_pos hne] at hok
    cases hok
  rw [hs.logGamma_eq hs' (hf.symm.trans halpha)] at hr
  exact hs.gain (mergeFields_gains hr hok)

theorem Summarizes.fromJSON {j : Json K} (hs : Summarizes m h vs) (hj : Image h j) :
    ∃ r, Histogram.fromJSON m j = .ok r ∧ Summarizes m r vs ∧ r.alpha = h.alpha := by
  obtain ⟨f, hf, halpha, hbuckets, hr⟩ := hj.reads hs
  have hrange : ¬(f.alpha ≤ 0 ∨ 1 ≤ f.alpha) := by
    rw [halpha, not_or, not_le, not_le]
    exact ⟨hs.alpha_pos, hs.alpha_lt⟩
  have hset : f.buckets.foldl (fun b e => EntryMap.set e.1 e.2 b) [] = f.buckets := by
    exact EntryMap.foldl_set hr.buckets.nodup
  unfold Histogram.fromJSON
  simp only [hf, Histogram.new, Option.getD_some, if_neg hrange, hset]
  refine ⟨_, rfl, ?_, halpha⟩
  have hlog : m.log ((1 + f.alpha) / (1 - f.alpha)) = h.logGamma := by
    rw [hs.logGamma, hs.gamma, halpha]
  exact
    { alpha_pos := halpha ▸ hs.alpha_pos, alpha_lt := halpha ▸ hs.alpha_lt, gamma := rfl, logGamma := rfl
      buckets := by rw [hlog]; exact hr.buckets
      zeroCount := hr.zeroCount, infCount := hr.infCount, count := hr.count
      total := (add_zero _).trans hr.sum, min := hr.min, max := hr.max
      order := fun o ho => nomatch ho }

end

/-! ## Sketches -/

section
variable {K : Type} [Field K] [LinearOrder K] [FloorRing K]

/-- A sketch of some values, in the order they came: built by the constructor, records, queries,
resets, merges with other sketches or their images, and revivals of images. -/
inductive Sketch (m : Maths K) : Histogram K → List (Value K) → Prop where
  | new {o h} (hnew : new m o = .ok h) : Sketch m h []
  | record {h vs v} (hs : Sketch m h vs) (hok : (record m h v).2 = .ok ()) : Sketch m (record m h v).1 (vs ++ [v])
  | percentile {h vs} (hs : Sketch m h vs) (q : Value K) : Sketch m (percentile m h q).1 vs
  | countAtOrBelow {h vs} (hs : Sketch m h vs) (t : Value K) : Sketch m (countAtOrBelow m h t).1 vs
  | reset {h vs} (hs : Sketch m h vs) : Sketch m (reset h) []
  | merge {h h' r vs ws} (hs : Sketch m h vs) (hs' : Sketch m h' ws) (hok : merge h h' = .ok r) :
    Sketch m r (vs ++ ws)
  | mergeJson {h h' r vs ws j} (hs : Sketch m h vs) (hs' : Sketch m h' ws) (hj : Image h' j)
    (hok : mergeJson h j = .ok r) : Sketch m r (vs ++ ws)
  | fromJSON {h r vs j} (hs : Sketch m h vs) (hj : Image h j) (hok : fromJSON m j = .ok r) : Sketch m r vs

variable {m : Maths K} {h h' : Histogram K} {vs ws : List (Value K)}

theorem Sketch.summarizes (hs : Sketch m h vs) : Summarizes m h vs := by
  induction hs with
  | new hnew => exact Summarizes.new hnew
  | record _ hok ih => exact ih.gain (record_gains hok)
  | percentile _ q ih => exact ih.cached (percentile_cached m _ q)
  | countAtOrBelow _ t ih => exact ih.cached (countAtOrBelow_cached m _ t)
  | reset _ ih => exact ih.reset
  | merge _ _ hok ih ih' => exact ih.mergeFields ih' rfl ih'.reads hok
  | mergeJson _ _ hj hok ih ih' =>
    obtain ⟨f, hf, halpha, -, hr⟩ := hj.reads ih'
    rw [Histogram.mergeJson, hf] at hok
    exact ih.mergeFields ih' halpha hr hok
  | fromJSON _ hj hok ih =>
    obtain ⟨r, hr, hsum, -⟩ := ih.fromJSON hj
    rw [hr] at hok
    cases hok
    exact hsum

/-- The fields that do not tell in what order the values came. -/
structure SameFields (h h' : Histogram K) : Prop where
  buckets : ∀ i, EntryMap.get i h.buckets = EntryMap.get i h'.buckets
  zeroCount : h.zeroCount = h'.zeroCount
  infCount : h.infCount = h'.infCount
  count : h.count = h'.count
  total : h.total = h'.total
  min : h.min = h'.min
  max : h.max = h'.max

theorem Summarizes.sameFields (hs : Summarizes m h vs) (hs' : Summarizes m h' ws) (halpha : h'.alpha = h.alpha)
    (hp : vs.Perm ws) : SameFields h h' := by
  have hfinites : (finites vs).Perm (finites ws) := hp.filterMap _
  refine ⟨fun i => ?_, ?_, ?_, ?_, ?_, ?_, ?_⟩
  · rw [hs.buckets.get, hs'.buckets.get, hs.logGamma_eq hs' halpha, inBucket, inBucket, hfinites.countP_eq]
  · rw [hs.zeroCount, hs'.zeroCount, hfinites.countP_eq]
  · rw [hs.infCount, hs'.infCount, hp.countP_eq]
  · rw [hs.count, hs'.count, hp.length_eq]
  · rw [hs.total, hs'.total, hfinites.sum_eq]
  · exact hs.min.unique hs'.min hfinites
  · exact hs.max.unique hs'.max hfinites

theorem mergeSort_perm_eq {xs ys : List ℤ} (h : xs.Perm ys) :
    xs.mergeSort (fun a b => decide (a ≤ b)) = ys.mergeSort fun a b => decide (a ≤ b) := by
  have hsorted := fun xs : List ℤ => List.pairwise_mergeSort' (· ≤ ·) xs
  have hperm := fun xs : List ℤ => List.mergeSort_perm xs fun a b => decide (a ≤ b)
  have hboth := (hperm xs).trans (h.trans (hperm ys).symm)
  exact hboth.eq_of_pairwise (fun a b _ _ hab hba => le_antisymm hab hba) (hsorted xs) (hsorted ys)

theorem orderOf_congr {b b' : List (ℤ × ℕ)} {f : ℤ → ℕ} (hb : EntryMap.Tallies b f)
    (hb' : EntryMap.Tallies b' f) : orderOf b = orderOf b' := by
  have hcount : ∀ i, EntryMap.count i b = EntryMap.count i b' := fun i => by rw [hb.count, hb'.count]
  unfold orderOf
  simp only [mergeSort_perm_eq (hb.keys_perm hb'), hcount]

structure Alike (h h' : Histogram K) : Prop where
  gamma : h.gamma = h'.gamma
  logGamma : h.logGamma = h'.logGamma
  fields : SameFields h h'
  order : (bucketOrder h).2 = (bucketOrder h').2

omit [Field K] [LinearOrder K] [FloorRing K] in
theorem bucketOrder_eq (horder : ∀ o, h.order = some o → o = orderOf h.buckets) :
    bucketOrder h = ({ h with order := some (orderOf h.buckets) }, orderOf h.buckets) := by
  unfold bucketOrder
  split
  · next o ho =>
    obtain rfl := horder o ho
    rw [← ho]
  · rfl

theorem Summarizes.alike (hs : Summarizes m h vs) (hs' : Summarizes m h' vs) (halpha : h'.alpha = h.alpha) :
    Alike h h' := by
  have hlog := hs.logGamma_eq hs' halpha
  refine ⟨by rw [hs.gamma, hs'.gamma, halpha], hlog.symm, hs.sameFields hs' halpha (List.Perm.refl _), ?_⟩
  rw [bucketOrder_eq hs.order, bucketOrder_eq hs'.order]
  exact orderOf_congr hs.buckets (hlog ▸ hs'.buckets)

omit [LinearOrder K] [FloorRing K] in
/-- A query reads the order of the buckets, and fields the cache is no part of. -/
theorem Alike.bucketOrder (hr : Alike h h') : ∃ x x' o,
    Histogram.bucketOrder h = ({ h with order := x }, o) ∧ Histogram.bucketOrder h' = ({ h' with order := x' }, o) := by
  refine ⟨_, _, _, Prod.ext (bucketOrder_cached h).eq rfl, Prod.ext (bucketOrder_cached h').eq hr.order.symm⟩

omit [FloorRing K] in
theorem valueOfRank_congr (hr : Alike h h') (target : K) :
    (valueOfRank m h target).2 = (valueOfRank m h' target).2 := by
  obtain ⟨x, x', o, ho, ho'⟩ := hr.bucketOrder
  have hfields := hr.fields
  simp only [valueOfRank, ho, ho', clamp, valueAt, hfields.zeroCount, hfields.infCount, hfields.count,
    hfields.min, hfields.max, hr.gamma]

theorem rankOf_congr (hr : Alike h h') (t : K) : (rankOf m h t).2 = (rankOf m h' t).2 := by
  obtain ⟨x, x', o, ho, ho'⟩ := hr.bucketOrder
  simp only [rankOf, ho, ho', index, EntryMap.count, hr.fields.zeroCount, hr.fields.buckets, hr.logGamma]

omit [FloorRing K] in
theorem percentile_congr (hr : Alike h h') (q : Value K) : (percentile m h q).2 = (percentile m h' q).2 := by
  unfold percentile
  rw [hr.fields.count, hr.fields.zeroCount, hr.fields.min]
  split
  · rfl
  cases q with
  | finite q =>
    dsimp only
    split
    · rfl
    split
    · rfl
    split
    · rfl
    · simp only [valueOfRank_congr hr]
  | _ => rfl

theorem countAtOrBelow_congr (hr : Alike h h') (t : Value K) :
    (countAtOrBelow m h t).2 = (countAtOrBelow m h' t).2 := by
  unfold countAtOrBelow
  rw [hr.fields.count, hr.fields.zeroCount]
  cases t with
  | finite t =>
    dsimp only
    split
    · rfl
    split
    · rfl
    · simp only [rankOf_congr hr]
  | _ => rfl

/-! ## The laws -/

omit [FloorRing K] in
theorem merge_ok (halpha : h'.alpha = h.alpha) : ∃ r, merge h h' = .ok r ∧ r.alpha = h.alpha := by
  have hsame : ¬(sketchFields h').alpha ≠ h.alpha := not_not.mpr halpha
  rw [merge, mergeFields, if_neg hsame]
  exact ⟨_, rfl, rfl⟩

def records (m : Maths K) (h : Histogram K) (vs : List (Value K)) : Histogram K :=
  vs.foldl (fun h v => (record m h v).1) h

def Value.Recordable (v : Value K) : Prop := v = .infinity ∨ ∃ x : K, v = .finite x ∧ ¬x < 0

theorem record_ok {v : Value K} (hv : v.Recordable) (h : Histogram K) : (record m h v).2 = .ok () := by
  rcases hv with rfl | ⟨x, rfl, hx⟩
  · rfl
  · unfold record
    dsimp only
    rw [if_neg hx]
    split <;> rfl

theorem Sketch.records (hs : Sketch m h vs) (hws : ∀ v ∈ ws, v.Recordable) :
    Sketch m (Histogram.records m h ws) (vs ++ ws) ∧ (Histogram.records m h ws).alpha = h.alpha := by
  induction ws generalizing h vs with
  | nil => exact ⟨by simpa [Histogram.records] using hs, rfl⟩
  | cons v ws ih =>
    have hok : (Histogram.record m h v).2 = .ok () := record_ok (hws v List.mem_cons_self) h
    obtain ⟨hsketch, halpha⟩ := ih (hs.record hok) fun w hw => hws w (List.mem_cons_of_mem _ hw)
    refine ⟨?_, halpha.trans (record_gains hok).alpha⟩
    rwa [List.append_assoc] at hsketch

end

/-- Functions that take the place of the logarithm and the power. -/
def linear : Maths ℚ := ⟨fun x => x, fun x i => x * i⟩

end PerformanceHelpers.Histogram
