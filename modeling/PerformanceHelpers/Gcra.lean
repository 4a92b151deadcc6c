import PerformanceHelpers.Limiter
import PerformanceHelpers.Options

/- `PowerGCRA` (`src/helpers/powerGCRA.js`): a limiter whose state is one theoretical arrival
   time (TAT), over exact rationals.

   What is proved:
     1. `admits_spec` — what is admitted moves the TAT on from the reading, by its units, and
        leaves it within the burst and one unit of the reading; what is refused moves nothing.
     2. `rate_bound` — so the units admitted at the readings of any span, in whatever order
        they were taken, are at most the burst, one, and the units of the span. A fraction of
        a burst counts as it is: `fractional_burst` admits one unit more than with its floor. -/
namespace PerformanceHelpers.Gcra

structure Limiter where
  rate : ℚ
  per : ℚ
  burst : ℚ
  /-- `_emission`. -/
  emission : ℚ
  delayTolerance : ℚ
  /-- `none` is `-Infinity`, no history. -/
  tat : Option ℚ
  lastNow : Option ℚ
  /-- Whether there is an `onError`, and the readings it was called with. -/
  onError : Bool
  reports : List ℚ

/-- The constructor's options. -/
structure Options where
  /-- Required: `Number(undefined)` is not finite. -/
  rate : Number := .nan
  per : Option ℚ := none
  burst : Option ℚ := none
  onError : Bool := false

def assertRate (rate : Number) : Except String ℚ :=
  match rate with
  | .finite r => if r ≤ 0 then .error "PowerGCRA: `rate` must be a finite number greater than 0" else .ok r
  | _ => .error "PowerGCRA: `rate` must be a finite number greater than 0"

/-- The constructor. -/
def new (o : Options) : Except String Limiter := do
  let rate ← assertRate o.rate
  let per ← assertLimitRequired o.per "per" "PowerGCRA" 1 1000
  let burst ← assertLimitRequired o.burst "burst" "PowerGCRA" 0 0
  pure { rate, per, burst, emission := per / rate, delayTolerance := burst * (per / rate)
         tat := none, lastNow := none, onError := o.onError, reports := [] }

/-- `setRate`: the TAT is kept. -/
def setRate (l : Limiter) (rate : Number) : Limiter × Except String ℚ :=
  match assertRate rate with
  | .error e => (l, .error e)
  | .ok r => ({ l with rate := r, emission := l.per / r, delayTolerance := l.burst * (l.per / r) }, .ok r)

def tatAt (l : Limiter) (now : ℚ) : ℚ := l.tat.elim now (max now)

def remainingAt (l : Limiter) (tat now : ℚ) : ℚ := l.delayTolerance - (tat - now)

def ceiling (l : Limiter) : ℤ := ⌊l.burst⌋ + 1

def covers (l : Limiter) (tat now : ℚ) : ℤ :=
  let remaining := remainingAt l tat now
  if remaining < 0 then 0
  else if l.delayTolerance ≤ remaining then ceiling l
  else ⌊remaining / l.emission⌋ + 1

def readClock (l : Limiter) (now : ℚ) : Limiter :=
  { l with
    reports := if l.onError && l.lastNow.any (fun last => decide (now < last)) then l.reports ++ [now]
      else l.reports
    lastNow := some now }

/-- A count above 0 that is asked for: admitted whole, or not at all. -/
def admits (l : Limiter) (count : ℕ) (now : ℚ) : Limiter × Bool :=
  let l := readClock l now
  let tat := tatAt l now
  if (count : ℤ) ≤ covers l tat now then ({ l with tat := some (tat + count * l.emission) }, true)
  else (l, false)

def tryConsume (l : Limiter) (n : Number) (now : ℚ) : Limiter × Except String Bool :=
  match assertCount n "PowerGCRA" "tryConsume" with
  | .error e => (l, .error e)
  | .ok 0 => (l, .ok true)
  | .ok (count + 1) =>
    let r := admits l (count + 1) now
    (r.1, .ok r.2)

def shortfall (l : Limiter) (count : ℕ) (now : ℚ) : ℚ :=
  max 0 ((count - 1) * l.emission - remainingAt l (tatAt l now) now)

def retryAfter (l : Limiter) (n : Number) (now : ℚ) : Except String ℚ :=
  match assertCount n "PowerGCRA" "retryAfter" with
  | .error e => .error e
  | .ok 0 => .ok 0
  | .ok count =>
    if ceiling l < count then
      .error (s!"PowerGCRA.retryAfter(): cannot ever admit {count} operations - the " ++
        s!"configured burst covers at most {ceiling l} at any instant. Waiting " ++
        "cannot make it fit, so there is no honest wait to report. Split the " ++
        "batch, or raise `burst`.")
    else .ok (shortfall l count now)

/-- `tryReserve`: `none` when it is admitted, or the time it would be. -/
def tryReserve (l : Limiter) (n : Number) (now : ℚ) : Limiter × Except String (Option ℚ) :=
  match assertCount n "PowerGCRA" "tryReserve" with
  | .error e => (l, .error e)
  | .ok 0 => (l, .ok none)
  | .ok (count + 1) =>
    let r := admits l (count + 1) now
    (r.1, .ok (if r.2 then none else some (now + shortfall l (count + 1) now)))

/-- `take`, which reads the clock again for the wait. -/
def take (l : Limiter) (n : Number) (now now' : ℚ) : Limiter × Except String (Option ℚ) :=
  match tryConsume l n now with
  | (l, .error e) => (l, .error e)
  | (l, .ok true) => (l, .ok none)
  | (l, .ok false) => (l, (retryAfter l n now').map some)

def available (l : Limiter) (now : ℚ) : ℤ := covers l (tatAt l now) now

def reset (l : Limiter) : Limiter := { l with tat := none }

/-- The calls that leave the history alone. `take` reads the clock twice. -/
inductive Call where
  | tryConsume (n : Number) (now : ℚ)
  | tryReserve (n : Number) (now : ℚ)
  | take (n : Number) (now now' : ℚ)
  | retryAfter (n : Number) (now : ℚ)
  | available (now : ℚ)

/-- The limiter after a call, and the units it admits. -/
def call (l : Limiter) : Call → Limiter × Option (ℚ × ℕ)
  | .tryConsume n now =>
    let r := tryConsume l n now
    (r.1, if r.2 = .ok true then some (now, units n) else none)
  | .tryReserve n now =>
    let r := tryReserve l n now
    (r.1, if r.2 = .ok none then some (now, units n) else none)
  | .take n now now' =>
    let r := take l n now now'
    (r.1, if r.2 = .ok none then some (now, units n) else none)
  | .retryAfter _ _ | .available _ => (l, none)

/-! ## What a call does to the arrival time -/

/-- What the constructor makes, and every call keeps. -/
structure Holds (l : Limiter) : Prop where
  emission : 0 < l.emission
  burst : 0 ≤ l.burst
  tolerance : l.delayTolerance = l.burst * l.emission

theorem assertRate_pos {rate : Number} {r : ℚ} (h : assertRate rate = .ok r) : 0 < r := by
  unfold assertRate at h
  split at h
  · split at h
    · cases h
    · cases h
      exact not_le.mp ‹_›
  · cases h

theorem per_new {o : Options} {l : Limiter} (h : new o = .ok l) : 0 < l.per := by
  obtain ⟨rate, -, h⟩ := bind_eq_ok.mp h
  obtain ⟨per, hper, h⟩ := bind_eq_ok.mp h
  obtain ⟨burst, -, h⟩ := bind_eq_ok.mp h
  cases h
  exact zero_lt_one.trans_le (assertLimitRequired_ge hper (by norm_num))

theorem holds_new {o : Options} {l : Limiter} (h : new o = .ok l) : Holds l ∧ l.tat = none := by
  obtain ⟨rate, hrate, h⟩ := bind_eq_ok.mp h
  obtain ⟨per, hper, h⟩ := bind_eq_ok.mp h
  obtain ⟨burst, hburst, h⟩ := bind_eq_ok.mp h
  cases h
  have hper : (1 : ℚ) ≤ per := assertLimitRequired_ge hper (by norm_num)
  have hburst : (0 : ℚ) ≤ burst := assertLimitRequired_ge hburst le_rfl
  have hpos := assertRate_pos hrate
  exact ⟨⟨div_pos (by linarith) hpos, hburst, rfl⟩, rfl⟩

structure Same (l l' : Limiter) : Prop where
  emission : l'.emission = l.emission
  burst : l'.burst = l.burst
  delayTolerance : l'.delayTolerance = l.delayTolerance

theorem Same.holds {l l' : Limiter} (h : Same l l') (hl : Holds l) : Holds l' where
  emission := h.emission ▸ hl.emission
  burst := h.burst ▸ hl.burst
  tolerance := by rw [h.delayTolerance, h.burst, h.emission, hl.tolerance]

/-- The TAT is moved on from a reading by the units, no further than the burst and one unit
from the reading. -/
structure Charged (l l' : Limiter) (now : ℚ) (count : ℕ) : Prop where
  tat : l'.tat = some (tatAt l now + count * l.emission)
  within : tatAt l now + count * l.emission ≤ now + (l.burst + 1) * l.emission

section
variable {l l' : Limiter} {count : ℕ} {now s e : ℚ}

theorem le_tatAt (l : Limiter) (now : ℚ) : now ≤ tatAt l now := by
  cases h : l.tat with
  | none | some tat => simp [tatAt, h]

theorem tatAt_mono (l : Limiter) (h : s ≤ now) : tatAt l s ≤ tatAt l now := by
  cases htat : l.tat with
  | none => simpa [tatAt, htat] using h
  | some tat => simpa [tatAt, htat] using max_le_max_right tat h

theorem tatAt_eq (h : l'.tat = l.tat) : tatAt l' now = tatAt l now := by
  rw [tatAt, tatAt, h]

theorem covers_spec (hl : Holds l) (h0 : 0 < count) {tat : ℚ}
    (h : (count : ℤ) ≤ covers l tat now) : tat + count * l.emission ≤ now + (l.burst + 1) * l.emission := by
  have hT := hl.emission
  have htol := hl.tolerance
  have hrem : remainingAt l tat now = l.delayTolerance - (tat - now) := rfl
  simp only [covers, ceiling] at h
  generalize remainingAt l tat now = remaining at h hrem
  by_cases hneg : remaining < 0
  · -- nothing is covered
    rw [if_pos hneg] at h
    omega
  rw [if_neg hneg] at h
  by_cases hfull : l.delayTolerance ≤ remaining
  · -- the whole burst, at its floor
    rw [if_pos hfull] at h
    have hfloor : ((⌊l.burst⌋ : ℤ) : ℚ) ≤ l.burst := Int.floor_le _
    have hcount : (count : ℚ) ≤ ⌊l.burst⌋ + 1 := by exact_mod_cast h
    have hle : (count : ℚ) * l.emission ≤ (l.burst + 1) * l.emission :=
      mul_le_mul_of_nonneg_right (by linarith) hT.le
    linarith
  · -- what remains, at the floor of its units
    rw [if_neg hfull] at h
    have hfloor := Int.floor_le (remaining / l.emission)
    have hcount : (count : ℚ) ≤ ⌊remaining / l.emission⌋ + 1 := by
      exact_mod_cast h
    have hle : ((count : ℚ) - 1) * l.emission ≤ remaining :=
      (le_div_iff₀ hT).mp (by linarith)
    have hexp : ((count : ℚ) - 1) * l.emission = count * l.emission - l.emission := by ring
    have hexp' : (l.burst + 1) * l.emission = l.burst * l.emission + l.emission := by ring
    linarith

theorem covers_mono (hl : Holds l) {tat tat' now' : ℚ}
    (h : remainingAt l tat now ≤ remainingAt l tat' now') : covers l tat now ≤ covers l tat' now' := by
  have hT := hl.emission
  unfold covers
  dsimp only
  generalize remainingAt l tat now = r at h
  generalize remainingAt l tat' now' = r' at h
  have hfloor : ⌊r / l.emission⌋ ≤ ⌊r' / l.emission⌋ :=
    Int.floor_le_floor (div_le_div_of_nonneg_right h hT.le)
  by_cases hneg : r < 0
  · rw [if_pos hneg]
    split
    · exact le_rfl
    · have h0 : 0 ≤ ⌊r' / l.emission⌋ := Int.floor_nonneg.mpr (div_nonneg (not_lt.mp ‹_›) hT.le)
      have hburst : 0 ≤ ⌊l.burst⌋ := Int.floor_nonneg.mpr hl.burst
      unfold ceiling
      split <;> omega
  rw [if_neg hneg, if_neg (by linarith : ¬r' < 0)]
  by_cases hfull : l.delayTolerance ≤ r
  · rw [if_pos hfull, if_pos (hfull.trans h)]
  rw [if_neg hfull]
  split
  · -- less than the whole burst remains
    have hlt : r / l.emission ≤ l.burst := by
      rw [div_le_iff₀ hT, ← hl.tolerance]
      exact (not_le.mp hfull).le
    exact add_le_add_left (Int.floor_le_floor hlt) 1
  · omega

/-- What is covered does not shrink while nothing is admitted. -/
theorem available_mono (hl : Holds l) (h : s ≤ now) : available l s ≤ available l now := by
  apply covers_mono hl
  cases htat : l.tat with
  | none => simp [remainingAt, tatAt, htat]
  | some tat =>
    simp only [remainingAt, tatAt, htat, Option.elim_some]
    have : max now tat - now ≤ max s tat - s := by
      rcases le_total now tat with h' | h'
      · rw [max_eq_right h', max_eq_right (h.trans h')]
        linarith
      · rw [max_eq_left h']
        have := le_max_left s tat
        linarith
    linarith

theorem tryConsume_available {n : Number} (hcount : assertCount n "PowerGCRA" "tryConsume" = .ok (count + 1))
    (h : ((count + 1 : ℕ) : ℤ) ≤ available l now) : (tryConsume l n now).2 = .ok true := by
  have hcovers : ((count + 1 : ℕ) : ℤ) ≤ covers (readClock l now) (tatAt (readClock l now) now) now := h
  simp only [tryConsume, hcount, admits, if_pos hcovers]

theorem admits_spec (hl : Holds l) (h0 : 0 < count) :
    Same l (admits l count now).1 ∧
      if (admits l count now).2 then Charged l (admits l count now).1 now count
      else (admits l count now).1.tat = l.tat := by
  by_cases h : (count : ℤ) ≤ covers (readClock l now) (tatAt (readClock l now) now) now
  · have hwithin := covers_spec hl h0 h
    simp only [admits, if_pos h]
    exact ⟨⟨rfl, rfl, rfl⟩, rfl, hwithin⟩
  · simp only [admits, if_neg h]
    exact ⟨⟨rfl, rfl, rfl⟩, rfl⟩

def Moves (l l' : Limiter) : Option (ℚ × ℕ) → Prop
  | none => l'.tat = l.tat
  | some (now, count) => count = 0 ∧ l'.tat = l.tat ∨ Charged l l' now count

theorem tryConsume_spec (hl : Holds l) (n : Number) (now : ℚ) :
    Same l (tryConsume l n now).1 ∧ Moves l (tryConsume l n now).1
      (if (tryConsume l n now).2 = .ok true then some (now, units n) else none) := by
  cases h : assertCount n "PowerGCRA" "tryConsume" with
  | error e =>
    simp only [tryConsume, h]
    exact ⟨⟨rfl, rfl, rfl⟩, rfl⟩
  | ok count =>
    rw [units_eq h]
    cases count with
    | zero =>
      simp only [tryConsume, h]
      exact ⟨⟨rfl, rfl, rfl⟩, Or.inl ⟨rfl, rfl⟩⟩
    | succ count =>
      obtain ⟨hsame, hmoves⟩ := admits_spec hl (Nat.succ_pos count)
      simp only [tryConsume, h]
      refine ⟨hsame, ?_⟩
      cases hr : (admits l (count + 1) now).2 with
      | false | true => simpa [hr, Moves] using hmoves

theorem tryReserve_eq (l : Limiter) (n : Number) (now : ℚ) :
    (tryReserve l n now).1 = (tryConsume l n now).1 ∧
      ((tryReserve l n now).2 = .ok none ↔ (tryConsume l n now).2 = .ok true) := by
  cases n with
  | finite q =>
    simp only [tryReserve, tryConsume, assertCount]
    cases ⌊q⌋.toNat with
    | zero => simp
    | succ count => cases h : (admits l (count + 1) now).2 <;> simp [h]
  | _ => simp [tryReserve, tryConsume, assertCount]

theorem take_eq (l : Limiter) (n : Number) (now now' : ℚ) :
    (take l n now now').1 = (tryConsume l n now).1 ∧
      ((take l n now now').2 = .ok none ↔ (tryConsume l n now).2 = .ok true) := by
  unfold take
  split
  · next h => simp [h]
  · next h => simp [h]
  · next h => cases retryAfter _ n now' <;> simp [h, Except.map]

theorem call_spec (hl : Holds l) (c : Call) :
    Same l (call l c).1 ∧ Moves l (call l c).1 (call l c).2 := by
  cases c with
  | tryConsume n now => exact tryConsume_spec hl n now
  | tryReserve n now =>
    obtain ⟨hl', hr⟩ := tryReserve_eq l n now
    simp only [call, hl', hr]
    exact tryConsume_spec hl n now
  | take n now now' =>
    obtain ⟨hl', hr⟩ := take_eq l n now now'
    simp only [call, hl', hr]
    exact tryConsume_spec hl n now
  | retryAfter _ _ | available _ => exact ⟨⟨rfl, rfl, rfl⟩, rfl⟩

section
variable (l : Limiter) (n : Number) (now : ℚ)

/-- What is asked for touches the readings and the TAT alone. -/
theorem tryConsume_eq :
    ∃ reports lastNow tat, (tryConsume l n now).1 = { l with reports, lastNow, tat } := by
  unfold tryConsume
  split
  · exact ⟨l.reports, l.lastNow, l.tat, rfl⟩
  · exact ⟨l.reports, l.lastNow, l.tat, rfl⟩
  · unfold admits
    dsimp only
    split <;> exact ⟨_, _, _, rfl⟩

theorem tryConsume_per : (tryConsume l n now).1.per = l.per := by
  obtain ⟨_, _, _, h⟩ := tryConsume_eq l n now
  rw [h]

theorem tryConsume_rate : (tryConsume l n now).1.rate = l.rate := by
  obtain ⟨_, _, _, h⟩ := tryConsume_eq l n now
  rw [h]

end

theorem call_per (l : Limiter) (c : Call) : (call l c).1.per = l.per := by
  cases c with
  | tryConsume n now => exact tryConsume_per l n now
  | tryReserve n now => simpa only [call, (tryReserve_eq l n now).1] using tryConsume_per l n now
  | take n now now' => simpa only [call, (take_eq l n now now').1] using tryConsume_per l n now
  | retryAfter _ _ | available _ => rfl

theorem setRate_keeps (hl : Holds l) (hper : 0 < l.per) (rate : Number) :
    Holds (setRate l rate).1 ∧ (setRate l rate).1.per = l.per := by
  unfold setRate
  split
  · exact ⟨hl, rfl⟩
  · next h => exact ⟨⟨div_pos hper (assertRate_pos h), hl.burst, rfl⟩, rfl⟩

theorem setRate_pos {rate : ℚ} (h : 0 < rate) (l : Limiter) :
    setRate l (.finite rate) =
      ({ l with rate, emission := l.per / rate, delayTolerance := l.burst * (l.per / rate) }, .ok rate) := by
  have hassert : assertRate (.finite rate) = .ok rate := if_neg (not_le.mpr h)
  rw [setRate, hassert]

theorem rate_new {o : Options} {l : Limiter} (h : new o = .ok l) : o.rate = .finite l.rate := by
  obtain ⟨rate, hrate, h⟩ := bind_eq_ok.mp h
  obtain ⟨per, -, h⟩ := bind_eq_ok.mp h
  obtain ⟨burst, -, h⟩ := bind_eq_ok.mp h
  cases h
  unfold assertRate at hrate
  split at hrate
  · next heq =>
    split at hrate
    · cases hrate
    · exact heq.trans (congrArg Number.finite (Except.ok.inj hrate))
  · cases hrate

/-! ## The units of a span -/

/-- The units admitted at the readings from `s` to `e`. -/
abbrev unitsIn (s e : ℚ) (log : List (ℚ × ℕ)) : ℕ := unitsAt (fun t => s ≤ t ∧ t ≤ e) log

/-- The TAT is past the start of the span by all its units, and the units are within the
bound. -/
structure Bounded (s e : ℚ) (l : Limiter) (log : List (ℚ × ℕ)) : Prop where
  behind : s + unitsIn s e log * l.emission ≤ tatAt l s
  units : unitsIn s e log * l.emission ≤ e - s + (l.burst + 1) * l.emission

theorem Charged.tatAt (h : Charged l l' now count) :
    tatAt l' s = max s (Gcra.tatAt l now + count * l.emission) := by
  unfold Gcra.tatAt
  rw [h.tat]
  rfl

theorem Charged.tatAt_le (hl : Holds l) (h : Charged l l' now count) : Gcra.tatAt l s ≤ Gcra.tatAt l' s := by
  have hpos : 0 ≤ (count : ℚ) * l.emission := mul_nonneg count.cast_nonneg hl.emission.le
  rw [h.tatAt]
  cases htat : l.tat with
  | none => simp [Gcra.tatAt, htat]
  | some tat =>
    have hle : tat ≤ Gcra.tatAt l now := by simp [Gcra.tatAt, htat]
    have hgo' : Gcra.tatAt l s = max s tat := by simp [Gcra.tatAt, htat]
    rw [hgo']
    exact max_le_max_left s (by linarith)

theorem bounded_call (hl : Holds l) {log : List (ℚ × ℕ)} (h : Bounded s e l log) (c : Call) :
    Bounded s e (call l c).1 (log ++ (call l c).2.toList) := by
  obtain ⟨hsame, hmoves⟩ := call_spec hl c
  generalize (call l c).1 = l' at hsame hmoves ⊢
  -- where the TAT does not move, no units are added
  have hstay : ∀ log', unitsIn s e log' = unitsIn s e log → l'.tat = l.tat → Bounded s e l' log' := by
    intro log' hunits htat
    exact ⟨by rw [hunits, hsame.emission, tatAt_eq htat]; exact h.behind,
      by rw [hunits, hsame.emission, hsame.burst]; exact h.units⟩
  cases ha : (call l c).2 with
  | none => exact hstay _ (by simp) (by simpa [Moves, ha] using hmoves)
  | some a =>
    obtain ⟨now, count⟩ := a
    rw [ha] at hmoves
    have hadd : unitsIn s e (log ++ (some (now, count)).toList) =
        unitsIn s e log + if s ≤ now ∧ now ≤ e then count else 0 := by
      rw [unitsIn, unitsAt_append, Option.toList_some, unitsAt_single]
    rcases hmoves with ⟨rfl, htat⟩ | hcharged
    · exact hstay _ (by rw [hadd]; simp) htat
    have hmono : tatAt l s ≤ tatAt l' s := hcharged.tatAt_le hl
    by_cases hin : s ≤ now ∧ now ≤ e
    · -- the TAT at the start of the span moves on by the units that are added
      rw [if_pos hin] at hadd
      have hat : tatAt l s + count * l.emission ≤ tatAt l now + count * l.emission := by
        have := tatAt_mono l hin.1
        linarith
      have hat' : tatAt l now + count * l.emission ≤ tatAt l' s := by
        rw [hcharged.tatAt]
        exact le_max_right _ _
      have hwithin := hcharged.within
      have hbehind := h.behind
      refine ⟨?_, ?_⟩
      · rw [hadd, hsame.emission]
        push_cast
        linarith
      · rw [hadd, hsame.emission, hsame.burst]
        push_cast
        linarith
    · rw [if_neg hin] at hadd
      refine ⟨?_, ?_⟩
      · rw [hadd, hsame.emission]
        exact h.behind.trans hmono
      · rw [hadd, hsame.emission, hsame.burst]
        exact h.units

end

/-- The units admitted at the readings of any span are at most the burst, one, and the units
the rate gives over the span, however the clock goes. -/
theorem rate_bound {o : Options} {l : Limiter} (hnew : new o = .ok l) (calls : List Call) (s : ℚ)
    {L : ℚ} (hL : 0 ≤ L) :
    (unitsAt (fun t => s ≤ t ∧ t ≤ s + L) (run (logged call) (l, []) calls).2 : ℚ) ≤
      l.burst + 1 + L / l.emission := by
  obtain ⟨hl, hnone⟩ := holds_new hnew
  have hstart : Bounded s (s + L) l [] := by
    have hT := hl.emission
    have hb := hl.burst
    refine ⟨by simpa using le_tatAt l s, ?_⟩
    have : 0 ≤ (l.burst + 1) * l.emission := mul_nonneg (by linarith) hT.le
    simpa using by linarith
  have hrun : Always (logged call) (fun t => Same l t.1 ∧ Bounded s (s + L) t.1 t.2) (l, []) calls := by
    refine always_of_step ?_ ⟨⟨rfl, rfl, rfl⟩, hstart⟩ calls
    intro t c ht
    have hlt := ht.1.holds hl
    have hsame := (call_spec hlt c).1
    refine ⟨⟨?_, ?_, ?_⟩, bounded_call hlt ht.2 c⟩
    · exact hsame.emission.trans ht.1.emission
    · exact hsame.burst.trans ht.1.burst
    · exact hsame.delayTolerance.trans ht.1.delayTolerance
  obtain ⟨hsame, hbounded⟩ := hrun.last
  have hunits := hbounded.units
  rw [hsame.emission, hsame.burst] at hunits
  have hsplit : l.burst + 1 + L / l.emission = ((l.burst + 1) * l.emission + L) / l.emission := by
    rw [add_div, mul_div_cancel_right₀ _ hl.emission.ne']
  rw [hsplit, le_div_iff₀ hl.emission]
  linarith

/-- One unit a millisecond, with half a unit of burst. -/
def halfBurst : Options := { rate := .finite 1, per := some 1, burst := some (1 / 2) }

theorem new_halfBurst : new halfBurst = .ok
    { rate := 1, per := 1, burst := 1 / 2, emission := 1 / 1, delayTolerance := 1 / 2 * (1 / 1)
      tat := none, lastNow := none, onError := false, reports := [] } := by
  have h : ¬(1 : ℚ) ≤ 0 := by norm_num
  have h' : ¬(1 / 2 : ℚ) < 0 := by norm_num
  simp only [new, halfBurst, assertRate, assertLimitRequired, if_neg h, if_neg h', lt_irrefl, if_false]
  rfl

/-- The second call comes half a unit early, on the burst. -/
theorem rate_bound_halfBurst : ∃ l, new halfBurst = .ok l ∧
    (unitsAt (fun t => 0 ≤ t ∧ t ≤ 0 + 1 / 2) (run (logged call) (l, [])
      [.tryConsume (.finite 1) 0, .tryConsume (.finite 1) (1 / 2)]).2 : ℚ) ≤
        l.burst + 1 + (1 / 2) / l.emission :=
  ⟨_, new_halfBurst, rate_bound new_halfBurst _ 0 (by norm_num)⟩

theorem fractional_burst : ∃ l calls, new halfBurst = .ok l ∧
    ¬(unitsAt (fun t => 0 ≤ t ∧ t ≤ 0 + 1 / 2) (run (logged call) (l, []) calls).2 : ℚ) ≤
      ⌊l.burst⌋ + 1 + (1 / 2) / l.emission :=
  ⟨_, [.tryConsume (.finite 1) 0, .tryConsume (.finite 1) (1 / 2)], new_halfBurst, by decide +kernel⟩

end PerformanceHelpers.Gcra
