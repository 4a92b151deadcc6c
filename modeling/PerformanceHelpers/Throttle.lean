import PerformanceHelpers.Limiter
import PerformanceHelpers.Options

/- `PowerThrottle` (`src/helpers/powerThrottle.js`): a token bucket that is refilled when it is
   read, over exact rationals.

   Whole tokens are added, and what is left of one is carried to the next refill, also where
   the bucket is full: a token is earned every `1000 / refillRate` ms, whatever is taken.

   What is proved:
     1. `refill_spec` — over the time since the last refill, the tokens with their carry grow
        by what the rate gives, at most, and stay less than one above the capacity.
     2. `bucket_bound` — so on a clock that does not go back, the tokens admitted in any span are
        less than one above the capacity and what the rate gives over the span. The carry is
        not idle: `carry_while_full` takes half a token more than the capacity and the rate. -/
namespace PerformanceHelpers.Throttle

structure Limiter where
  capacity : ℤ
  tokens : ℚ
  /-- Tokens a second. -/
  refillRate : ℚ
  lastRefill : ℚ
  /-- `_tokenRemainder`. -/
  remainder : ℚ
  /-- Readings before `lastRefill`, in a row. -/
  backwardSteps : ℕ
  deriving DecidableEq

structure Options where
  capacity : Option ℤ := none
  tokens : Option Number := none
  refillRate : Option ℚ := none

/-- The constructor, at a reading of the limiter's own clock. -/
def new (o : Options) (now : ℚ) : Except String Limiter := do
  let capacity ← assertLimitRequired o.capacity "capacity" "PowerThrottle" 1 1
  let refillRate ← assertLimitRequired o.refillRate "refillRate" "PowerThrottle" 0 0
  let tokens : ℚ := match o.tokens with
    | some (.finite q) => min capacity q
    | _ => capacity
  pure { capacity, tokens, refillRate, lastRefill := now, remainder := 0, backwardSteps := 0 }

/-- `BACKWARD_CLOCK_TOLERANCE`. -/
def backwardClockTolerance : ℕ := 3

def refillBackward (l : Limiter) (now : ℚ) : Limiter :=
  if backwardClockTolerance ≤ l.backwardSteps + 1 then { l with lastRefill := now, backwardSteps := 0 }
  else { l with backwardSteps := l.backwardSteps + 1 }

def tokensToAdd (l : Limiter) (now : ℚ) : ℚ := (now - l.lastRefill) / 1000 * l.refillRate + l.remainder

def refillForward (l : Limiter) (now : ℚ) : Limiter :=
  let whole := ⌊tokensToAdd l now⌋
  { l with
    backwardSteps := 0
    remainder := tokensToAdd l now - whole
    lastRefill := now
    tokens := if 0 < whole then min l.capacity (l.tokens + whole) else l.tokens }

def refill (l : Limiter) (now : ℚ) : Limiter :=
  if l.refillRate ≤ 0 then l
  else if now < l.lastRefill then refillBackward l now
  else if now - l.lastRefill ≤ 0 then { l with backwardSteps := 0 }
  else refillForward l now

/-- A count above 0 that is taken whole, or not at all. -/
def take (l : Limiter) (want : ℕ) (now : ℚ) : Limiter × Bool :=
  let l := refill l now
  if want ≤ l.tokens then ({ l with tokens := l.tokens - want }, true) else (l, false)

def tryConsume (l : Limiter) (n : Number) (now : ℚ) : Limiter × Except String Bool :=
  match assertCount n "PowerThrottle" "tryConsume" with
  | .error e => (l, .error e)
  | .ok 0 => (l, .ok true)
  | .ok (want + 1) =>
    let r := take l (want + 1) now
    (r.1, .ok r.2)

/-- `reserve`: a token, or `null`. -/
def reserve (l : Limiter) (n : Number) (now : ℚ) : Limiter × Except String (Option ℕ) :=
  match assertCount n "PowerThrottle" "reserve" with
  | .error e => (l, .error e)
  | .ok 0 => (l, .ok (some 0))
  | .ok (want + 1) =>
    let r := take l (want + 1) now
    (r.1, .ok (if r.2 then some (want + 1) else none))

/-- `release` of a token, and `rollback`. -/
def release (l : Limiter) (token : ℕ) : Limiter :=
  if token = 0 then l else { l with tokens := min l.capacity (l.tokens + token) }

def addTokens (l : Limiter) (n : Number) : Limiter × Except String Unit :=
  match assertCount n "PowerThrottle" "addTokens" with
  | .error e => (l, .error e)
  | .ok add => (release l add, .ok ())

def available (l : Limiter) (now : ℚ) : Limiter × ℚ := (refill l now, (refill l now).tokens)

/-- `reset`, at a reading of the limiter's own clock. A count that is no number is 0. -/
def reset (l : Limiter) (count : Option Number) (now : ℚ) : Limiter :=
  let tokens : ℚ := match count with
    | none | some .infinity => l.capacity
    | some (.finite q) => max 0 (min l.capacity q)
    | some .negInfinity | some .nan => 0
  { l with tokens, lastRefill := now, remainder := 0, backwardSteps := 0 }

/-- The calls that only take. -/
inductive Call where
  | tryConsume (n : Number) (now : ℚ)
  | reserve (n : Number) (now : ℚ)
  | available (now : ℚ)

/-- The reading of the clock at a call. -/
def Call.now : Call → ℚ
  | .tryConsume _ now | .reserve _ now | .available now => now

/-- The limiter after a call, and the tokens it admits. -/
def call (l : Limiter) : Call → Limiter × Option (ℚ × ℕ)
  | .tryConsume n now =>
    let r := tryConsume l n now
    (r.1, if r.2 = .ok true then some (now, units n) else none)
  | .reserve n now =>
    let r := reserve l n now
    (r.1, match r.2 with
      | .ok (some token) => some (now, token)
      | _ => none)
  | .available now => ((available l now).1, none)

/-! ## What a refill gives -/

/-- What the constructor makes, and every call keeps. -/
structure Holds (l : Limiter) : Prop where
  capacity : 1 ≤ l.capacity
  refillRate : 0 ≤ l.refillRate
  tokens : l.tokens ≤ l.capacity
  remainder : 0 ≤ l.remainder
  remainder_lt : l.remainder < 1

def held (l : Limiter) : ℚ := l.tokens + l.remainder

theorem Holds.held_lt {l : Limiter} (h : Holds l) : held l < l.capacity + 1 := by
  have := h.tokens
  have := h.remainder_lt
  unfold held
  linarith

theorem holds_new {o : Options} {now : ℚ} {l : Limiter} (h : new o now = .ok l) :
    Holds l ∧ l.lastRefill = now := by
  obtain ⟨capacity, hcapacity, h⟩ := bind_eq_ok.mp h
  obtain ⟨refillRate, hrate, h⟩ := bind_eq_ok.mp h
  cases h
  have hcapacity : (1 : ℤ) ≤ capacity := assertLimitRequired_ge hcapacity le_rfl
  have hrate : (0 : ℚ) ≤ refillRate := assertLimitRequired_ge hrate le_rfl
  refine ⟨⟨hcapacity, hrate, ?_, le_rfl, one_pos⟩, rfl⟩
  dsimp only
  split
  · exact min_le_left _ _
  · exact le_rfl

/-- What the rate gives over a time. -/
def gain (l : Limiter) (t : ℚ) : ℚ := t / 1000 * l.refillRate

structure Same (l l' : Limiter) : Prop where
  capacity : l'.capacity = l.capacity
  refillRate : l'.refillRate = l.refillRate

structure Refilled (l l' : Limiter) (now : ℚ) : Prop where
  same : Same l l'
  holds : Holds l'
  lastRefill : 0 < l.refillRate → l'.lastRefill = now
  lastRefill_le : l'.lastRefill ≤ now
  idle : l.refillRate = 0 → l' = l
  held_le : held l' ≤ held l + (now - l.lastRefill) / 1000 * l.refillRate

section
variable {l l' : Limiter} {now t s e : ℚ}

theorem gain_mono (hl : Holds l) {t t' : ℚ} (h : t ≤ t') : gain l t ≤ gain l t' :=
  mul_le_mul_of_nonneg_right (div_le_div_of_nonneg_right h (by norm_num)) hl.refillRate

theorem gain_nonneg (hl : Holds l) {t : ℚ} (h : 0 ≤ t) : 0 ≤ gain l t :=
  mul_nonneg (div_nonneg h (by norm_num)) hl.refillRate

theorem Same.gain (h : Same l l') (t : ℚ) : gain l' t = gain l t := by
  rw [Throttle.gain, h.refillRate]
  rfl

section
variable (hl : Holds l) (h : l.lastRefill ≤ now)
include hl h

theorem tokensToAdd_nonneg : 0 ≤ tokensToAdd l now := by
  have hgain := gain_nonneg hl (t := now - l.lastRefill) (by linarith)
  exact add_nonneg hgain hl.remainder

theorem refillForward_held :
    Holds (refillForward l now) ∧ held (refillForward l now) ≤ l.tokens + tokensToAdd l now := by
  have hfloor := Int.floor_le (tokensToAdd l now)
  have hlt := Int.lt_floor_add_one (tokensToAdd l now)
  have hrem := tokensToAdd_nonneg hl h
  have hwhole : (0 : ℚ) ≤ ⌊tokensToAdd l now⌋ := by exact_mod_cast Int.floor_nonneg.mpr hrem
  refine ⟨⟨hl.capacity, hl.refillRate, ?_, ?_, ?_⟩, ?_⟩
  · simp only [refillForward]
    split
    · exact min_le_left _ _
    · exact hl.tokens
  · simp only [refillForward]
    linarith
  · simp only [refillForward]
    linarith
  · simp only [held, refillForward]
    split
    · have := min_le_right (l.capacity : ℚ) (l.tokens + ⌊tokensToAdd l now⌋)
      linarith
    · linarith

theorem refill_spec : Refilled l (refill l now) now := by
  have hgain := gain_nonneg hl (t := now - l.lastRefill) (by linarith)
  unfold gain at hgain
  unfold refill
  by_cases hrate : l.refillRate ≤ 0
  · rw [if_pos hrate]
    exact ⟨⟨rfl, rfl⟩, hl, fun h0 => absurd hrate (not_le.mpr h0), h, fun _ => rfl, by linarith⟩
  have hidle : l.refillRate ≠ 0 := fun h0 => hrate h0.le
  rw [if_neg hrate, if_neg (not_lt.mpr h)]
  split
  · have heq : l.lastRefill = now := by linarith
    refine ⟨⟨rfl, rfl⟩, { hl with }, fun _ => heq, h,
      fun h0 => absurd h0 hidle, ?_⟩
    simp only [held] at *
    linarith
  · obtain ⟨hholds, hheld⟩ := refillForward_held hl h
    refine ⟨⟨rfl, rfl⟩, hholds, fun _ => rfl, le_rfl, fun h0 => absurd h0 hidle, ?_⟩
    unfold tokensToAdd at hheld
    unfold held at *
    linarith

end

theorem refill_forward (h0 : 0 < l.refillRate) (h : l.lastRefill < now) :
    refill l now = refillForward l now := by
  rw [refill, if_neg (not_le.mpr h0), if_neg (not_lt.mpr h.le), if_neg (by linarith)]

theorem refill_at (h0 : 0 < l.refillRate) (h : l.lastRefill = now) :
    refill l now = { l with backwardSteps := 0 } := by
  rw [refill, if_neg (not_le.mpr h0), if_neg (by linarith), if_pos (by linarith)]

theorem refill_idle (h0 : l.refillRate = 0) : refill l now = l := if_pos h0.le

/-- What a refill leaves, whether there is a whole token or not. -/
theorem refillForward_eq (hl : Holds l) (h : l.lastRefill ≤ now) :
    refillForward l now =
      { l with
        backwardSteps := 0
        remainder := tokensToAdd l now - ⌊tokensToAdd l now⌋
        lastRefill := now
        tokens := min l.capacity (l.tokens + ⌊tokensToAdd l now⌋) } := by
  have hnonneg := Int.floor_nonneg.mpr (tokensToAdd_nonneg hl h)
  by_cases hwhole : 0 < ⌊tokensToAdd l now⌋
  · simp only [refillForward, if_pos hwhole]
  · have hzero : ⌊tokensToAdd l now⌋ = 0 := by omega
    simp only [refillForward, hzero, lt_irrefl, if_false, Int.cast_zero, add_zero]
    rw [min_eq_right hl.tokens]

/-- What is added in two steps is added in one. -/
theorem min_add_min_add {c a b : ℚ} (x : ℚ) (hb : 0 ≤ b) :
    min c (min c (x + a) + b) = min c (x + (a + b)) := by
  rcases le_total c (x + a) with h | h
  · rw [min_eq_left h, min_eq_left (by linarith), min_eq_left (by linarith)]
  · rw [min_eq_right h, add_assoc]

section
variable (hl : Holds l)
include hl

theorem refillForward_refillForward (h : l.lastRefill ≤ now) (hle : now ≤ t) :
    refillForward (refillForward l now) t = refillForward l t := by
  have hadd : tokensToAdd (refillForward l now) t = tokensToAdd l t - ⌊tokensToAdd l now⌋ := by
    simp only [tokensToAdd, refillForward]
    ring
  have hfloor : ⌊tokensToAdd (refillForward l now) t⌋ = ⌊tokensToAdd l t⌋ - ⌊tokensToAdd l now⌋ := by
    rw [hadd, Int.floor_sub_intCast]
  have hmore : (0 : ℚ) ≤ ⌊tokensToAdd l t⌋ - ⌊tokensToAdd l now⌋ := by
    have hgain := gain_mono hl (sub_le_sub_right hle l.lastRefill)
    have hle : ⌊tokensToAdd l now⌋ ≤ ⌊tokensToAdd l t⌋ :=
      Int.floor_le_floor (add_le_add_left hgain _)
    exact_mod_cast sub_nonneg.mpr hle
  rw [refillForward_eq (refillForward_held hl h).1 hle, hfloor, hadd, refillForward_eq hl h,
    refillForward_eq hl (h.trans hle)]
  simp only [Limiter.mk.injEq, true_and, and_true]
  push_cast
  constructor
  · rw [min_add_min_add _ hmore, add_sub_cancel]
  · ring

/-- Two refills are one, at the later reading. -/
theorem refill_refill (h : l.lastRefill ≤ now) (hle : now ≤ t) :
    refill (refill l now) t = refill l t := by
  rcases hl.refillRate.eq_or_lt with h0 | h0
  · rw [refill_idle h0.symm, refill_idle h0.symm]
  rcases h.eq_or_lt with hlast | hlt
  · -- the first refill only forgets the backward steps, as the second would
    have hfirst := refill_at h0 hlast
    obtain ⟨l', hl'⟩ : ∃ l', l' = { l with backwardSteps := 0 } := ⟨_, rfl⟩
    rw [hfirst, ← hl']
    have hlast' : l'.lastRefill = now := by rw [hl', ← hlast]
    have h0' : 0 < l'.refillRate := by rwa [hl']
    rcases hle.eq_or_lt with rfl | hlt'
    · rw [refill_at h0' hlast', refill_at h0 hlast, hl']
    · rw [refill_forward h0' (hlast'.trans_lt hlt'), refill_forward h0 (hlast.trans_lt hlt'), hl']
      rfl
  rw [refill_forward h0 hlt, refill_forward h0 (hlt.trans_le hle)]
  rcases hle.eq_or_lt with rfl | hlt'
  · exact refill_at (l := refillForward l now) h0 rfl
  · rw [refill_forward (l := refillForward l now) h0 hlt']
    exact refillForward_refillForward hl h hle

theorem release_eq (token : ℕ) :
    release l token = { l with tokens := min l.capacity (l.tokens + token) } := by
  by_cases h : token = 0
  · subst h
    rw [release, if_pos rfl, Nat.cast_zero, add_zero, min_eq_right hl.tokens]
  · exact if_neg h

theorem holds_release (token : ℕ) : Holds (release l token) := by
  rw [release_eq hl]
  exact ⟨hl.capacity, hl.refillRate, min_le_left _ _, hl.remainder, hl.remainder_lt⟩

/-- A release and a refill may change places. -/
theorem refill_release (h : l.lastRefill ≤ now) (token : ℕ) :
    refill (release l token) now = release (refill l now) token := by
  have hl' := holds_release hl token
  have htoken : (0 : ℚ) ≤ token := token.cast_nonneg
  rw [release_eq (refill_spec hl h).holds]
  obtain ⟨l', hl''⟩ : ∃ l', l' = release l token := ⟨_, rfl⟩
  rw [← hl''] at hl' ⊢
  rw [release_eq hl] at hl''
  have hlast' : l'.lastRefill = l.lastRefill := by rw [hl'']
  have hrate' : l'.refillRate = l.refillRate := by rw [hl'']
  rcases hl.refillRate.eq_or_lt with h0 | h0
  · rw [refill_idle (hrate'.trans h0.symm), refill_idle h0.symm, hl'']
  have h0' : 0 < l'.refillRate := by rwa [hrate']
  rcases h.eq_or_lt with hlast | hlt
  · rw [refill_at h0' (hlast'.trans hlast), refill_at h0 hlast, hl'']
  have hwhole : (0 : ℚ) ≤ ⌊tokensToAdd l now⌋ := by
    exact_mod_cast Int.floor_nonneg.mpr (tokensToAdd_nonneg hl h)
  have hadd : tokensToAdd l' now = tokensToAdd l now := by
    rw [hl'']
    rfl
  rw [refill_forward h0' (by rwa [hlast']), refill_forward h0 hlt,
    refillForward_eq hl' (by rwa [hlast']), refillForward_eq hl h, hadd, hl'']
  simp only [Limiter.mk.injEq, true_and, and_true]
  rw [min_add_min_add _ hwhole, min_add_min_add _ htoken, add_comm (token : ℚ)]

theorem le_refill_tokens (h : l.lastRefill ≤ now) : l.tokens ≤ (refill l now).tokens := by
  rcases hl.refillRate.eq_or_lt with h0 | h0
  · rw [refill_idle h0.symm]
  rcases h.eq_or_lt with hlast | hlt
  · rw [refill_at h0 hlast]
  have hwhole : (0 : ℚ) ≤ ⌊tokensToAdd l now⌋ := by
    exact_mod_cast Int.floor_nonneg.mpr (tokensToAdd_nonneg hl h)
  rw [refill_forward h0 hlt, refillForward_eq hl h]
  exact le_min hl.tokens (by linarith)

/-- Tokens that are there are there later. -/
theorem tryConsume_held (h : l.lastRefill ≤ now) {n : Number} {want : ℕ}
    (hcount : assertCount n "PowerThrottle" "tryConsume" = .ok want) (hwant : want ≤ l.tokens) :
    (tryConsume l n now).2 = .ok true := by
  have hheld := hwant.trans (le_refill_tokens hl h)
  cases want with
  | zero => simp only [tryConsume, hcount]
  | succ want => simp only [tryConsume, hcount, take, if_pos hheld]

end

inductive Does (l : Limiter) (now : ℚ) : Limiter → Option (ℚ × ℕ) → Prop where
  | nothing : Does l now l none
  | none : Does l now l (some (now, 0))
  | refills : Does l now (refill l now) none
  | takes (want : ℕ) (h : want ≤ (refill l now).tokens) :
      Does l now { refill l now with tokens := (refill l now).tokens - want } (some (now, want))

theorem take_does (l : Limiter) (want : ℕ) (now : ℚ) :
    Does l now (take l want now).1 (if (take l want now).2 then some (now, want) else none) := by
  by_cases h : (want : ℚ) ≤ (refill l now).tokens
  · simpa [take, h] using Does.takes want h
  · simpa [take, h] using Does.refills

theorem call_does (l : Limiter) (c : Call) : Does l c.now (call l c).1 (call l c).2 := by
  cases c with
  | tryConsume n now =>
    cases h : assertCount n "PowerThrottle" "tryConsume" with
    | error e => simpa [call, tryConsume, h] using Does.nothing
    | ok want =>
      cases want with
      | zero => simpa [call, tryConsume, h, units_eq h, Call.now] using Does.none
      | succ want => simpa [call, tryConsume, h, units_eq h, Call.now] using take_does l (want + 1) now
  | reserve n now =>
    cases h : assertCount n "PowerThrottle" "reserve" with
    | error e => simpa [call, reserve, h] using Does.nothing
    | ok want =>
      cases want with
      | zero => simpa [call, reserve, h, Call.now] using Does.none
      | succ want =>
        have htake := take_does l (want + 1) now
        cases hr : (take l (want + 1) now).2 with
        | false | true => simpa [call, reserve, h, hr, Call.now] using htake
  | available now => exact Does.refills

/-! ## The tokens of a span -/

/-- The tokens admitted at the readings from `s` to `e`. -/
abbrev unitsIn (s e : ℚ) (log : List (ℚ × ℕ)) : ℕ := unitsAt (fun t => s ≤ t ∧ t ≤ e) log

/-- What was taken in the span and what is held are within the capacity, one, and what the
rate has given since the span began. -/
structure Bounded (s e : ℚ) (l : Limiter) (log : List (ℚ × ℕ)) : Prop where
  held : unitsIn s e log + held l < l.capacity + 1 + gain l (max s l.lastRefill - s)
  began : 0 < l.refillRate → 0 < unitsIn s e log → s ≤ l.lastRefill
  units : unitsIn s e log < l.capacity + 1 + gain l (e - s)

variable {log : List (ℚ × ℕ)}

section
variable (hl : Holds l) (h : l.lastRefill ≤ now)
include hl h

theorem bounded_refill (hb : Bounded s e l log) :
    Bounded s e (refill l now) log := by
  obtain ⟨hsame, hholds, hlast, hle, hidle, hheld⟩ := refill_spec hl h
  rcases hl.refillRate.eq_or_lt with h0 | hpos
  · rw [hidle h0.symm]
    exact hb
  have hlast := hlast hpos
  refine ⟨?_, ?_, ?_⟩
  · rw [hsame.capacity, hsame.gain, hlast]
    by_cases hnone : unitsIn s e log = 0
    · -- nothing was taken in the span: less than one above the capacity is held
      have hlt := hholds.held_lt
      have hgain := gain_nonneg hl (t := max s now - s) (sub_nonneg.mpr (le_max_left s now))
      rw [hsame.capacity] at hlt
      rw [hnone]
      push_cast
      linarith
    · -- the span had begun at the last refill, and the rate gave the rest
      have hbegan := hb.began hpos (Nat.pos_of_ne_zero hnone)
      have hbound := hb.held
      rw [max_eq_right hbegan] at hbound
      rw [max_eq_right (hbegan.trans h)]
      have hsplit : gain l (now - s) =
          gain l (l.lastRefill - s) + (now - l.lastRefill) / 1000 * l.refillRate := by
        unfold gain
        ring
      linarith
  · rw [hlast]
    intro _ hunits
    exact (hb.began hpos hunits).trans h
  · rw [hsame.capacity, hsame.gain]
    exact hb.units

theorem bounded_does {r : Option (ℚ × ℕ)}
    (hb : Bounded s e l log) (hdoes : Does l now l' r) : Bounded s e l' (log ++ r.toList) := by
  cases hdoes with
  | nothing => simpa using hb
  | none =>
    have hsame : unitsIn s e (log ++ [(now, 0)]) = unitsIn s e log := by
      rw [unitsIn, unitsAt_append, unitsAt_single]
      simp
    exact ⟨by simpa [hsame] using hb.held, by simpa [hsame] using hb.began,
      by simpa [hsame] using hb.units⟩
  | refills => simpa using bounded_refill hl h hb
  | takes want hwant =>
    have href := refill_spec hl h
    have hb' := bounded_refill hl h hb
    have hadd : unitsIn s e (log ++ [(now, want)]) =
        unitsIn s e log + if s ≤ now ∧ now ≤ e then want else 0 := by
      rw [unitsIn, unitsAt_append, unitsAt_single]
    have hrem := href.holds.remainder
    have hheld := hb'.held
    have hunits := hb'.units
    simp only [Option.toList_some]
    by_cases hin : s ≤ now ∧ now ≤ e
    · -- what is taken goes from the held tokens to those of the span
      rw [if_pos hin] at hadd
      have hlast : max s (refill l now).lastRefill - s ≤ e - s := by
        have := max_le (hin.1.trans hin.2) (href.lastRefill_le.trans hin.2)
        linarith
      have hgain := gain_mono href.holds hlast
      unfold Throttle.held at hheld
      refine ⟨?_, ?_, ?_⟩
      · rw [hadd]
        simp only [Throttle.held, gain] at *
        push_cast
        linarith
      · intro hpos _
        rw [href.same.refillRate] at hpos
        simpa [href.lastRefill hpos] using hin.1
      · rw [hadd]
        simp only [gain] at *
        push_cast
        linarith
    · rw [if_neg hin, Nat.add_zero] at hadd
      have hwant0 : (0 : ℚ) ≤ want := want.cast_nonneg
      refine ⟨?_, ?_, ?_⟩
      · rw [hadd]
        simp only [Throttle.held, gain] at *
        linarith
      · rw [hadd]
        exact hb'.began
      · rw [hadd]
        exact hunits

theorem does_keeps {r : Option (ℚ × ℕ)}
    (hdoes : Does l now l' r) : Same l l' ∧ Holds l' ∧ l'.lastRefill ≤ now := by
  cases hdoes with
  | nothing | none => exact ⟨⟨rfl, rfl⟩, hl, h⟩
  | refills =>
    have href := refill_spec hl h
    exact ⟨href.same, href.holds, href.lastRefill_le⟩
  | takes want hwant =>
    have href := refill_spec hl h
    have htokens := href.holds.tokens
    have hwant0 : (0 : ℚ) ≤ want := want.cast_nonneg
    refine ⟨⟨href.same.capacity, href.same.refillRate⟩, ⟨?_, href.holds.refillRate, ?_,
      href.holds.remainder, href.holds.remainder_lt⟩, href.lastRefill_le⟩
    · exact href.holds.capacity
    · dsimp only
      linarith

end

end

/-- On a clock that does not go back, the tokens admitted in any span are less than one above
the capacity and what the rate gives over the span. -/
theorem bucket_bound {o : Options} {builtAt : ℚ} {l : Limiter} (hnew : new o builtAt = .ok l)
    (calls : List Call) (hclock : (builtAt :: calls.map Call.now).Pairwise (· ≤ ·)) (s : ℚ) {L : ℚ}
    (hL : 0 ≤ L) :
    (unitsAt (fun t => s ≤ t ∧ t ≤ s + L) (run (logged call) (l, []) calls).2 : ℚ) <
      l.capacity + 1 + l.refillRate * L / 1000 := by
  obtain ⟨hl, hlast⟩ := holds_new hnew
  have hstart : Bounded s (s + L) l [] := by
    have hlt := hl.held_lt
    have hgain := gain_nonneg hl (t := max s l.lastRefill - s) (sub_nonneg.mpr (le_max_left _ _))
    have hgain' := gain_nonneg hl (t := s + L - s) (by linarith)
    refine ⟨?_, ?_, ?_⟩
    · simp only [unitsAt_nil, Nat.cast_zero]
      linarith
    · intro _ h
      exact absurd h (lt_irrefl 0)
    · simp only [unitsAt_nil, Nat.cast_zero]
      have hcapacity : (1 : ℚ) ≤ l.capacity := by exact_mod_cast hl.capacity
      linarith
  have hmeets : Meets (logged call) (fun t c => t.1.lastRefill ≤ c.now) (l, []) calls := by
    obtain ⟨hbuilt, hclock⟩ := List.pairwise_cons.mp hclock
    refine meets_of_clock (P := fun t : Limiter × List (ℚ × ℕ) => Holds t.1) Call.now
      (fun t now => t.1.lastRefill ≤ now) (fun t r r' h hr => h.trans hr) ?_ hl ?_ hclock
    · intro t c ht hc
      exact (does_keeps ht hc (call_does t.1 c)).2
    · intro c hc
      exact hlast.le.trans (hbuilt _ (List.mem_map_of_mem hc))
  have hrun : Always (logged call)
      (fun t => Same l t.1 ∧ Holds t.1 ∧ Bounded s (s + L) t.1 t.2) (l, []) calls := by
    refine always_of_meets ?_ ⟨⟨rfl, rfl⟩, hl, hstart⟩ hmeets
    intro t c ht hc
    obtain ⟨hsame, hholds, -⟩ := does_keeps ht.2.1 hc (call_does t.1 c)
    refine ⟨⟨?_, ?_⟩, hholds, bounded_does ht.2.1 hc ht.2.2 (call_does t.1 c)⟩
    · exact hsame.capacity.trans ht.1.capacity
    · exact hsame.refillRate.trans ht.1.refillRate
  obtain ⟨hsame, -, hbounded⟩ := hrun.last
  have hunits := hbounded.units
  rw [hsame.capacity, hsame.gain] at hunits
  have hgain : gain l (s + L - s) = l.refillRate * L / 1000 := by
    unfold gain
    ring
  rwa [hgain] at hunits

/-- A bucket of one token, refilled once a second. -/
def onePerSecond : Options := { refillRate := some 1 }

theorem new_onePerSecond : new onePerSecond 0 = .ok
    { capacity := 1, tokens := 1, refillRate := 1, lastRefill := 0, remainder := 0
      backwardSteps := 0 } := by
  have h : ¬(1 : ℚ) < 0 := by norm_num
  simp only [new, onePerSecond, assertLimitRequired, if_neg h]
  rfl

/-- A token at half a second, and the one that is earned at the second. -/
def halfASecondApart : List Call := [.tryConsume (.finite 1) 500, .tryConsume (.finite 1) 1000]

theorem bucket_bound_onePerSecond : ∃ l, new onePerSecond 0 = .ok l ∧
    (unitsAt (fun t => 500 ≤ t ∧ t ≤ 500 + 500) (run (logged call) (l, []) halfASecondApart).2 : ℚ) <
      l.capacity + 1 + l.refillRate * 500 / 1000 :=
  ⟨_, new_onePerSecond, bucket_bound new_onePerSecond halfASecondApart
    (by decide +kernel) 500 (by norm_num)⟩

theorem carry_while_full : ∃ l, new onePerSecond 0 = .ok l ∧
    (0 :: halfASecondApart.map Call.now).Pairwise (· ≤ ·) ∧
      ¬(unitsAt (fun t => 500 ≤ t ∧ t ≤ 500 + 500) (run (logged call) (l, []) halfASecondApart).2 : ℚ) ≤
        l.capacity + l.refillRate * 500 / 1000 :=
  ⟨_, new_onePerSecond, by decide +kernel, by decide +kernel⟩

end PerformanceHelpers.Throttle
