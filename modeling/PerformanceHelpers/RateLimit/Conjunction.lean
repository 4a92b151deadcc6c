import PerformanceHelpers.Gcra.Waits
import PerformanceHelpers.RateLimit

/- A composition admits what each of its legs admits (`src/helpers/powerRateLimit.js`).

   The legs are shipped limiters (`PowerGCRA`, `PowerThrottle`, `PowerSlidingWindow`), each once,
   that read one value of their clocks at the pre-flight and at the commit. No clock has to go on
   from one call to the next: a throttle may be refilled in the past, and a window may hold its
   times out of order (it forgets from the front, up to the first that is not over).

   What is proved:
     1. `Leg.probe` — after its `available()` a leg answers a count as it would have alone, what it
        admits was available, and it is charged that count exactly.
     2. `preflight_refused`, `commits` — over distinct legs the pre-flight and the commit ask each
        leg once, in the state it was in.
     3. `conjunction` — so in every state a run reaches a request is admitted exactly when every
        leg alone admits it, and then every leg is charged exactly its units. -/
namespace PerformanceHelpers

namespace SlidingWindow

variable {w w' : Window} {xs ys : List ℚ} {now : ℚ} {want : ℕ}

/-- A prune at one reading leaves nothing to another. -/
theorem kept_kept (hsame : Same w w') : kept w' now (kept w now xs) = kept w now xs := by
  rw [kept, hsame.windowMs]
  exact List.dropWhile_idempotent _ _

/-- The capacity and the slots have room for the units. -/
def Room (w : Window) (ys : List ℚ) (want : ℕ) : Prop :=
  ys.length + (want : ℚ) ≤ w.capacity ∧ ys.length + want ≤ 2 ^ 30

theorem consumeTimes_of_room (h : Room w ys want) :
    consumeTimes w.capacity ys now want = (ys ++ List.replicate want now, some true) := by
  rw [consumeTimes, if_pos h.1, if_neg (not_lt.mpr h.2)]

theorem consumeTimes_admits : (consumeTimes w.capacity ys now want).2 = some true ↔ Room w ys want := by
  constructor
  · intro h
    unfold consumeTimes at h
    split at h
    · next hfits =>
      split at h
      · cases h
      · next hfew => exact ⟨hfits, not_lt.mp hfew⟩
    · cases h
  · intro h
    rw [consumeTimes_of_room h]

theorem tryConsume_admits (h : PowerQueue.Holds itemWeight w.timestamps xs) {n : Number}
    (hcount : assertCount n "PowerSlidingWindow" "tryConsume" = .ok (want + 1)) :
    (tryConsume w n now).2 = .ok true ↔ Room w (kept w now xs) (want + 1) := by
  obtain ⟨-, -, hanswer⟩ := tryConsume_kept h hcount now
  rw [← consumeTimes_admits, ← hanswer]
  cases (tryConsume w n now).2 with
  | error e => exact iff_of_false (fun h => by cases h) fun h => by cases h
  | ok b => simp [Except.toOption]

end SlidingWindow

namespace Throttle

variable {l : Limiter} {now : ℚ} {want : ℕ}

/-- A reading that is not after the last refill adds nothing. -/
theorem refill_tokens_of_le (h : now ≤ l.lastRefill) : (refill l now).tokens = l.tokens := by
  unfold refill refillBackward
  by_cases hrate : l.refillRate ≤ 0
  · rw [if_pos hrate]
  · rw [if_neg hrate]
    by_cases hback : now < l.lastRefill
    · rw [if_pos hback]
      split <;> rfl
    · rw [if_neg hback, if_pos (by linarith)]

theorem le_lastRefill_refill (h : ¬l.refillRate ≤ 0) : now ≤ (refill l now).lastRefill := by
  unfold refill refillBackward
  rw [if_neg h]
  by_cases hback : now < l.lastRefill
  · rw [if_pos hback]
    split
    · exact le_rfl
    · exact hback.le
  · rw [if_neg hback]
    split
    · exact not_lt.mp hback |>.antisymm (by linarith) |>.ge
    · exact le_rfl

/-- A second refill at one reading adds nothing, wherever the reading is. -/
theorem refill_again (l : Limiter) (now : ℚ) : (refill (refill l now) now).tokens = (refill l now).tokens := by
  by_cases hrate : l.refillRate ≤ 0
  · have hidle : refill l now = l := if_pos hrate
    rw [hidle, hidle]
  · exact refill_tokens_of_le (le_lastRefill_refill hrate)

theorem refill_same (l : Limiter) (now : ℚ) : Same l (refill l now) := by
  unfold refill refillBackward
  split
  · exact ⟨rfl, rfl⟩
  split
  · split <;> exact ⟨rfl, rfl⟩
  split
  · exact ⟨rfl, rfl⟩
  · exact ⟨rfl, rfl⟩

theorem tryConsume_take {n : Number} (hcount : assertCount n "PowerThrottle" "tryConsume" = .ok (want + 1))
    (l : Limiter) (now : ℚ) :
    ((tryConsume l n now).2 = .ok true ↔ ((want + 1 : ℕ) : ℚ) ≤ (refill l now).tokens) ∧
      (((want + 1 : ℕ) : ℚ) ≤ (refill l now).tokens →
        (tryConsume l n now).1 = { refill l now with tokens := (refill l now).tokens - (want + 1 : ℕ) }) := by
  rw [tryConsume, hcount]
  dsimp only [take]
  by_cases h : ((want + 1 : ℕ) : ℚ) ≤ (refill l now).tokens
  · rw [if_pos h]
    exact ⟨iff_of_true rfl h, fun _ => rfl⟩
  · rw [if_neg h]
    exact ⟨iff_of_false (fun hfalse => by cases hfalse) h, fun h' => absurd h' h⟩

end Throttle

namespace RateLimit

variable {τ : Type}

/-! ## One leg -/

/-- A shipped leg as its constructor makes it and every call keeps it: a window's queue is one that
`PowerQueue` made. -/
def Leg.Sound : Leg τ → Prop
  | .gcra _ | .throttle _ => True
  | .window w => ∃ xs, PowerQueue.Holds SlidingWindow.itemWeight w.timestamps xs
  | .thirdParty _ _ => False

/-- The leg is charged the units: a limiter's arrival time moves on by them, a bucket loses them,
a window records them. -/
def Leg.Charged : Leg τ → Leg τ → ℕ → ℚ → Prop
  | l, l', 0, _ => l' = l
  | .gcra l, .gcra l', want + 1, now =>
    Gcra.Same l l' ∧ l'.tat = some (Gcra.tatAt l now + (want + 1 : ℕ) * l.emission)
  | .throttle l, .throttle l', want + 1, now =>
    Throttle.Same l l' ∧ l'.tokens = (Throttle.refill l now).tokens - (want + 1 : ℕ)
  | .window w, .window w', want + 1, now =>
    SlidingWindow.Same w w' ∧ ∃ xs, PowerQueue.Holds SlidingWindow.itemWeight w.timestamps xs ∧
      PowerQueue.Holds SlidingWindow.itemWeight w'.timestamps
        (SlidingWindow.kept w now xs ++ List.replicate (want + 1) now)
  | _, _, _ + 1, _ => False

def Leg.Admits (l : Leg τ) (n : Number) (now : ℚ) : Prop := (l.call (.tryConsume n) now).2 = .ok (.admits true)

section
variable {l : Leg τ} {n : Number} {want : ℕ} {now : ℚ}

theorem Leg.Sound.shipped (h : l.Sound) : l.shipped = true := by
  cases l with
  | thirdParty like state => exact h.elim
  | _ => rfl

theorem Leg.Sound.call (h : l.Sound) (r : Request) (now : ℚ) : (l.call r now).1.Sound := by
  cases l with
  | thirdParty like state => exact h.elim
  | gcra l | throttle l => trivial
  | window w =>
    obtain ⟨xs, hq⟩ := h
    cases r with
    | tryConsume n =>
      cases hcount : assertCount n "PowerSlidingWindow" "tryConsume" with
      | error e =>
        refine ⟨xs, ?_⟩
        simpa only [Leg.call, callWindow, SlidingWindow.tryConsume, hcount, Prod.map] using hq
      | ok want =>
        cases want with
        | zero =>
          refine ⟨xs, ?_⟩
          simpa only [Leg.call, callWindow, SlidingWindow.tryConsume, hcount, Prod.map] using hq
        | succ want =>
          obtain ⟨-, hkept, -⟩ := SlidingWindow.tryConsume_kept hq hcount now
          exact ⟨_, hkept⟩
    | available =>
      obtain ⟨-, hkept, -⟩ := SlidingWindow.available_kept hq now
      exact ⟨_, hkept⟩
    | reset _ => exact ⟨[], hq.clear.2⟩
    | _ => exact ⟨xs, hq⟩

/-- What is asked for is the count. -/
theorem Leg.admits_count (hcount : ∀ className, assertCount n className "tryConsume" = .ok want)
    (h : l.shipped = true) : l.call (.tryConsume (.finite want)) now = l.call (.tryConsume n) now := by
  have hnat : ∀ className, assertCount (.finite want) className "tryConsume" = .ok want := fun className =>
    assertCount_nat want className "tryConsume"
  cases l with
  | thirdParty like state => cases h
  | gcra l => simp only [Leg.call, callGcra, Gcra.tryConsume, hcount, hnat]
  | throttle l => simp only [Leg.call, callThrottle, Throttle.tryConsume, hcount, hnat]
  | window w => simp only [Leg.call, callWindow, SlidingWindow.tryConsume, hcount, hnat]

theorem map_admits_iff {α : Type} {x : Except α Bool} :
    x.map Answer.admits = .ok (.admits true) ↔ x = .ok true := by
  cases x with
  | error e => exact iff_of_false (fun h => by cases h) fun h => by cases h
  | ok b => simp [Except.map]

/-- What a leg answers before and after its `available()`. -/
structure Probed (l : Leg τ) (want : ℕ) (now q : ℚ) : Prop where
  room : (l.call .available now).2 = .ok (.room q)
  alone : (l.call .available now).1.Admits (.finite want) now ↔ l.Admits (.finite want) now
  fits : l.Admits (.finite want) now → (want : ℚ) ≤ q
  charged : l.Admits (.finite want) now →
    l.Charged ((l.call .available now).1.call (.tryConsume (.finite want)) now).1 want now

theorem probe_gcra (l : Gcra.Limiter) (want : ℕ) (now : ℚ) :
    Probed (.gcra l : Leg τ) (want + 1) now (Gcra.available l now) := by
  have hadmits : (Leg.gcra l : Leg τ).Admits (.finite (want + 1 : ℕ)) now ↔
      (Gcra.admits l (want + 1) now).2 = true := by
    have hanswer : (Gcra.tryConsume l (.finite (want + 1 : ℕ)) now).2 = .ok (Gcra.admits l (want + 1) now).2 := by
      simp only [Gcra.tryConsume, assertCount_nat]
    show (Gcra.tryConsume l (.finite (want + 1 : ℕ)) now).2.map Answer.admits = _ ↔ _
    rw [map_admits_iff, hanswer, Except.ok.injEq]
  refine ⟨rfl, Iff.rfl, fun h => ?_, fun h => ?_⟩
  · exact_mod_cast Gcra.admits_iff.mp (hadmits.mp h)
  · have hcovers := Gcra.admits_iff.mp (hadmits.mp h)
    have hcharged : (Gcra.admits l (want + 1) now).1 =
        { Gcra.readClock l now with tat := some (Gcra.tatAt l now + (want + 1 : ℕ) * l.emission) } := by
      rw [Gcra.admits]
      exact congrArg Prod.fst (if_pos hcovers)
    have hleg : (((Leg.gcra l : Leg τ).call .available now).1.call (.tryConsume (.finite (want + 1 : ℕ))) now).1 =
        .gcra (Gcra.admits l (want + 1) now).1 := by
      simp only [Leg.call, callGcra, Gcra.tryConsume, assertCount_nat, Prod.map, id]
    rw [hleg, hcharged]
    exact ⟨⟨rfl, rfl, rfl⟩, rfl⟩

theorem probe_throttle (l : Throttle.Limiter) (want : ℕ) (now : ℚ) :
    Probed (.throttle l : Leg τ) (want + 1) now (Throttle.refill l now).tokens := by
  have hcount := assertCount_nat (want + 1) "PowerThrottle" "tryConsume"
  have hadmits : ∀ l : Throttle.Limiter, (Leg.throttle l : Leg τ).Admits (.finite (want + 1 : ℕ)) now ↔
      ((want + 1 : ℕ) : ℚ) ≤ (Throttle.refill l now).tokens := by
    intro l
    rw [Leg.Admits, Leg.call, callThrottle]
    exact map_admits_iff.trans (Throttle.tryConsume_take hcount l now).1
  have hagain := Throttle.refill_again l now
  have hprobed : ((Leg.throttle l : Leg τ).call .available now).1 = .throttle (Throttle.refill l now) := rfl
  refine ⟨rfl, ?_, (hadmits l).mp, fun h => ?_⟩
  · rw [hprobed, hadmits, hadmits, hagain]
  · have htaken := (Throttle.tryConsume_take hcount (Throttle.refill l now) now).2
      (by rw [hagain]; exact (hadmits l).mp h)
    have hleg : ((Leg.throttle (Throttle.refill l now) : Leg τ).call
        (.tryConsume (.finite (want + 1 : ℕ))) now).1 =
        .throttle (Throttle.tryConsume (Throttle.refill l now) (.finite (want + 1 : ℕ)) now).1 := rfl
    have hfirst := Throttle.refill_same l now
    have hsecond := Throttle.refill_same (Throttle.refill l now) now
    rw [hprobed, hleg, htaken]
    refine ⟨⟨hsecond.capacity.trans hfirst.capacity, hsecond.refillRate.trans hfirst.refillRate⟩, ?_⟩
    show (Throttle.refill (Throttle.refill l now) now).tokens - _ = _
    rw [hagain]

theorem probe_window {w : SlidingWindow.Window} {xs : List ℚ}
    (hq : PowerQueue.Holds SlidingWindow.itemWeight w.timestamps xs) (want : ℕ) (now : ℚ) :
    Probed (.window w : Leg τ) (want + 1) now
      (max 0 (w.capacity - (SlidingWindow.kept w now xs).length)) := by
  have hcount := assertCount_nat (want + 1) "PowerSlidingWindow" "tryConsume"
  have hadmits : ∀ {w : SlidingWindow.Window} {xs : List ℚ},
      PowerQueue.Holds SlidingWindow.itemWeight w.timestamps xs →
        ((Leg.window w : Leg τ).Admits (.finite (want + 1 : ℕ)) now ↔
          SlidingWindow.Room w (SlidingWindow.kept w now xs) (want + 1)) := by
    intro w xs hq
    rw [Leg.Admits, Leg.call, callWindow]
    refine map_admits_iff.trans (Iff.trans ?_ (SlidingWindow.tryConsume_admits hq hcount))
    cases (SlidingWindow.tryConsume w (.finite (want + 1 : ℕ)) now).2 with
    | error e => exact iff_of_false (fun h => by cases h) fun h => by cases h
    | ok b => simp [Except.mapError]
  obtain ⟨hsame, hq', hanswer⟩ := SlidingWindow.available_kept hq now
  have hprobed : ((Leg.window w : Leg τ).call .available now).1 = .window (SlidingWindow.available w now).1 := rfl
  have hkept : SlidingWindow.kept (SlidingWindow.available w now).1 now (SlidingWindow.kept w now xs) =
      SlidingWindow.kept w now xs :=
    SlidingWindow.kept_kept hsame
  refine ⟨?_, ?_, fun h => ?_, fun h => ?_⟩
  · simp only [Leg.call, callWindow, hanswer, Prod.map]
    rfl
  · rw [hprobed, hadmits hq', hadmits hq, hkept, SlidingWindow.Room, SlidingWindow.Room, hsame.capacity]
  · have hroom := ((hadmits hq).mp h).1
    refine le_trans ?_ (le_max_right _ _)
    linarith
  · obtain ⟨hsame', hrecorded, -⟩ := SlidingWindow.tryConsume_kept hq' hcount now
    rw [hkept, hsame.capacity, SlidingWindow.consumeTimes_of_room ((hadmits hq).mp h)] at hrecorded
    rw [hprobed]
    exact ⟨⟨hsame'.capacity.trans hsame.capacity, hsame'.windowMs.trans hsame.windowMs⟩, xs, hq, hrecorded⟩

/-- A sound leg answers after its `available()` as it would have alone. -/
theorem Leg.probe (h : l.Sound) (want : ℕ) (now : ℚ) : ∃ q, Probed l (want + 1) now q := by
  cases l with
  | gcra l => exact ⟨_, probe_gcra l want now⟩
  | throttle l => exact ⟨_, probe_throttle l want now⟩
  | window w =>
    obtain ⟨xs, hq⟩ := h
    exact ⟨_, probe_window hq want now⟩
  | thirdParty like state => exact h.elim

end

/-! ## All legs -/

section
variable {f : Objects τ} {t : ℕ → ℚ} {want : ℕ} {legs : List ℕ}

/-- A pre-flight is refused by a leg that has too little, in the state it was in. -/
theorem preflight_refused (hdistinct : legs.Nodup) (allHaveAvailable : Bool)
    (h : (preflight want t legs allHaveAvailable f).2 = .refused) :
    ∃ i ∈ legs, ∃ a, ((f i).call .available (t i)).2 = .ok a ∧ a.below want = true := by
  induction legs generalizing f allHaveAvailable with
  | nil => cases h
  | cons j legs ih =>
    obtain ⟨hj, hdistinct⟩ := List.nodup_cons.mp hdistinct
    have hother : ∀ i ∈ legs, (callLeg f j .available (t j)).1 i = f i := by
      intro i hi
      have hne : i ≠ j := fun heq => hj (heq ▸ hi)
      exact Function.update_of_ne hne ..
    rw [preflight] at h
    by_cases hhas : (f j).has .available = true
    · rw [if_pos hhas] at h
      have hsplit : callLeg f j .available (t j) =
          ((callLeg f j .available (t j)).1, ((f j).call .available (t j)).2) := rfl
      rw [hsplit] at h
      cases hanswer : ((f j).call .available (t j)).2 with
      | error e =>
        rw [hanswer] at h
        cases h
      | ok a =>
        rw [hanswer] at h
        dsimp only at h
        by_cases hbelow : a.below want = true
        · exact ⟨j, List.mem_cons_self, a, hanswer, hbelow⟩
        · rw [if_neg hbelow] at h
          obtain ⟨i, hi, a', ha', hbelow'⟩ := ih hdistinct allHaveAvailable h
          rw [hother i hi] at ha'
          exact ⟨i, List.mem_cons_of_mem _ hi, a', ha', hbelow'⟩
    · rw [if_neg hhas] at h
      obtain ⟨i, hi, hrest⟩ := ih hdistinct false h
      exact ⟨i, List.mem_cons_of_mem _ hi, hrest⟩

/-- What a commit does over distinct legs: it answers true when every leg does in the state it was
in, and then each has been called once. -/
structure Committed (want : ℕ) (t : ℕ → ℚ) (legs : List ℕ) (f : Objects τ) (r : Objects τ × Except String Bool) :
    Prop where
  answer : r.2 = .ok true ↔ ∀ i ∈ legs, ∃ a, ((f i).call (.tryConsume (.finite want)) (t i)).2 = .ok a ∧ a.truthy
  others : ∀ i, i ∉ legs → r.1 i = f i
  leg : r.2 = .ok true → ∀ i ∈ legs, r.1 i = ((f i).call (.tryConsume (.finite want)) (t i)).1

theorem commits (hdistinct : legs.Nodup) (f : Objects τ) : Committed want t legs f (commit want t legs f) := by
  induction legs generalizing f with
  | nil => exact ⟨iff_of_true rfl (by simp), fun _ _ => rfl, fun _ i hi => absurd hi List.not_mem_nil⟩
  | cons j legs ih =>
    obtain ⟨hj, hdistinct⟩ := List.nodup_cons.mp hdistinct
    have hself : (callLeg f j (.tryConsume (.finite want)) (t j)).1 j =
        ((f j).call (.tryConsume (.finite want)) (t j)).1 := Function.update_self ..
    have hother : ∀ i, i ≠ j → (callLeg f j (.tryConsume (.finite want)) (t j)).1 i = f i :=
      fun i hi => Function.update_of_ne hi ..
    have hne : ∀ i ∈ legs, i ≠ j := fun i hi heq => hj (heq ▸ hi)
    have hsplit : callLeg f j (.tryConsume (.finite want)) (t j) =
        ((callLeg f j (.tryConsume (.finite want)) (t j)).1,
          ((f j).call (.tryConsume (.finite want)) (t j)).2) := rfl
    rw [commit, hsplit]
    generalize (callLeg f j (.tryConsume (.finite want)) (t j)).1 = g at *
    -- a leg that does not admit ends the commit
    have hstop : ∀ r : Except String Bool, r ≠ .ok true →
        (¬∃ a, ((f j).call (.tryConsume (.finite want)) (t j)).2 = .ok a ∧ a.truthy) →
        Committed want t (j :: legs) f (g, r) := by
      intro r hr hno
      refine ⟨iff_of_false hr fun hall => hno (hall j List.mem_cons_self), fun i hi => ?_, fun h => absurd h hr⟩
      exact hother i fun heq => hi (heq ▸ List.mem_cons_self)
    cases ha : ((f j).call (.tryConsume (.finite want)) (t j)).2 with
    | error e =>
      refine hstop _ (fun h => by cases h) ?_
      rw [ha]
      rintro ⟨a, h, -⟩
      cases h
    | ok a =>
      dsimp only
      by_cases htruthy : a.truthy = true
      · rw [if_pos htruthy]
        have hrest := ih hdistinct g
        refine ⟨hrest.answer.trans ?_, fun i hi => ?_, fun htrue i hi => ?_⟩
        · constructor
          · intro hall i hi
            rcases List.mem_cons.mp hi with rfl | hi
            · exact ⟨a, ha, htruthy⟩
            · rw [← hother i (hne i hi)]
              exact hall i hi
          · intro hall i hi
            rw [hother i (hne i hi)]
            exact hall i (List.mem_cons_of_mem _ hi)
        · rw [hrest.others i fun h => hi (List.mem_cons_of_mem _ h)]
          exact hother i fun heq => hi (heq ▸ List.mem_cons_self)
        · rcases List.mem_cons.mp hi with rfl | hi
          · rw [hrest.others i hj, hself]
          · rw [hrest.leg htrue i hi, hother i (hne i hi)]
      · rw [if_neg htruthy]
        refine hstop _ (fun h => by cases h) ?_
        rw [ha]
        rintro ⟨a', h, htruthy'⟩
        cases h
        exact htruthy htruthy'

/-- A request of a count above 0 over sound legs. -/
theorem consumeIn_iff (hdistinct : legs.Nodup) (hsound : ∀ i ∈ legs, (f i).Sound) {n : Number}
    (hcount : ∀ className, assertCount n className "tryConsume" = .ok (want + 1)) (atomic : Bool) :
    ((consumeIn legs n atomic t t f).2.2 = .ok true ↔ ∀ i ∈ legs, (f i).Admits (.finite (want + 1 : ℕ)) (t i)) ∧
      ((consumeIn legs n atomic t t f).2.2 = .ok true → ∀ i ∈ legs,
        (f i).Charged ((consumeIn legs n atomic t t f).1 i) (want + 1) (t i)) := by
  have hhas : ∀ i ∈ legs, (f i).has .available = true := fun i hi => Leg.has_available (hsound i hi).shipped
  have hcapable : (legs.all fun i => (f i).has .tryConsume || (f i).has .reserve) = true := by
    rw [List.all_eq_true]
    intro i hi
    have hshipped := (hsound i hi).shipped
    cases hleg : f i with
    | thirdParty like state =>
      rw [hleg] at hshipped
      cases hshipped
    | _ => rfl
  have hasked := preflight_asked (want + 1) t hdistinct true f
  have hrefused : (preflight (want + 1) t legs true f).2 = .refused →
      ∃ i ∈ legs, ∃ a, ((f i).call .available (t i)).2 = .ok a ∧ a.below (want + 1) = true :=
    preflight_refused hdistinct true
  rw [consumeIn, hcount]
  dsimp only
  rw [if_pos hcapable]
  generalize preflight (want + 1) t legs true f = r at hasked hrefused
  obtain ⟨g, p⟩ := r
  cases p with
  | refused =>
    -- the leg that has too little would not have admitted the count
    obtain ⟨i, hi, a, ha, hbelow⟩ := hrefused rfl
    obtain ⟨q, hprobed⟩ := Leg.probe (hsound i hi) want (t i)
    obtain rfl : a = .room q := Except.ok.inj (ha.symm.trans hprobed.room)
    have hshort : q < (want + 1 : ℕ) := by simpa [Answer.below] using hbelow
    refine ⟨iff_of_false (fun h => by cases h) fun hall => ?_, fun h => by cases h⟩
    exact absurd (hprobed.fits (hall i hi)) (not_le.mpr hshort)
  | failed =>
    obtain ⟨i, hi, -, e, he⟩ := hasked.failed rfl
    obtain ⟨q, hprobed⟩ := Leg.probe (hsound i hi) want (t i)
    rw [hprobed.room] at he
    cases he
  | passed all =>
    obtain ⟨hall, hlegs⟩ := hasked.passed all rfl
    have hgo : (!atomic || all) = true := by
      rw [hall, Bool.true_and, List.all_eq_true.mpr hhas, Bool.or_true]
    have hcommit : Committed (want + 1) t legs g (commit (want + 1) t legs g) := commits hdistinct g
    dsimp only at hlegs ⊢
    rw [if_pos hgo]
    dsimp only
    have hanswer : ((commit (want + 1) t legs g).2 = .ok true ↔
        ∀ i ∈ legs, (f i).Admits (.finite (want + 1 : ℕ)) (t i)) := by
      refine hcommit.answer.trans (forall₂_congr fun i hi => ?_)
      obtain ⟨q, hprobed⟩ := Leg.probe (hsound i hi) want (t i)
      rw [(hlegs i hi (hhas i hi)).1, ← hprobed.alone]
      have hshipped : ((f i).call .available (t i)).1.shipped = true := by
        rw [Leg.call_shipped]
        exact (hsound i hi).shipped
      constructor
      · rintro ⟨a, ha, htruthy⟩
        obtain ⟨ok, rfl⟩ := Leg.tryConsume_answer hshipped ha
        obtain rfl : ok = true := htruthy
        exact ha
      · intro h
        exact ⟨_, h, rfl⟩
    refine ⟨hanswer, fun htrue i hi => ?_⟩
    obtain ⟨q, hprobed⟩ := Leg.probe (hsound i hi) want (t i)
    rw [hcommit.leg htrue i hi, (hlegs i hi (hhas i hi)).1]
    exact hprobed.charged (hanswer.mp htrue i hi)

end

/-! ## Runs -/

section
variable {w : World τ} {builtAt : ℕ → ℚ}

theorem Leg.New.sound {l : Leg τ} {t : ℚ} (h : l.New t) (hshipped : l.shipped = true) : l.Sound := by
  cases l with
  | gcra l | throttle l => trivial
  | window w =>
    obtain ⟨o, ho⟩ := h
    exact ⟨[], (SlidingWindow.holds_new ho).1.queue⟩
  | thirdParty like state => cases hshipped

theorem Leg.charged_zero (l : Leg τ) (now : ℚ) : l.Charged l 0 now := by
  cases l <;> rfl

/-- A count of 0 is admitted, and changes nothing. -/
theorem Leg.call_zero {l : Leg τ} {n : Number} (hcount : ∀ className, assertCount n className "tryConsume" = .ok 0)
    (h : l.shipped = true) (now : ℚ) : l.call (.tryConsume n) now = (l, .ok (.admits true)) := by
  cases l with
  | thirdParty like state => cases h
  | gcra l => simp [Leg.call, callGcra, Gcra.tryConsume, hcount, Except.map]
  | throttle l => simp [Leg.call, callThrottle, Throttle.tryConsume, hcount, Except.map]
  | window w => simp [Leg.call, callWindow, SlidingWindow.tryConsume, hcount, Except.map, Except.mapError]

/-- What is no count is not admitted. -/
theorem Leg.not_admits {l : Leg τ} {n : Number}
    (hcount : ∀ className, ∃ e, assertCount n className "tryConsume" = .error e) (h : l.shipped = true) (now : ℚ) :
    ¬l.Admits n now := by
  obtain ⟨e₁, h₁⟩ := hcount "PowerGCRA"
  obtain ⟨e₂, h₂⟩ := hcount "PowerThrottle"
  obtain ⟨e₃, h₃⟩ := hcount "PowerSlidingWindow"
  cases l with
  | thirdParty like state => cases h
  | gcra l => simp [Leg.Admits, Leg.call, callGcra, Gcra.tryConsume, h₁, Except.map]
  | throttle l => simp [Leg.Admits, Leg.call, callThrottle, Throttle.tryConsume, h₂, Except.map]
  | window w => simp [Leg.Admits, Leg.call, callWindow, SlidingWindow.tryConsume, h₃, Except.map, Except.mapError]

/-- No call of the composition or of a limiter makes a leg unsound, whatever the clocks show. -/
theorem after_sound {legs : List ℕ} (w : World τ) (e : Event) (h : ∀ i ∈ legs, (w.objects i).Sound) :
    ∀ i ∈ legs, ((after w e).objects i).Sound := by
  have hcall : ∀ (f : Objects τ) (i : ℕ) (r : Request) (now : ℚ), (∀ j ∈ legs, (f j).Sound) →
      ∀ j ∈ legs, ((callLeg f i r now).1 j).Sound := by
    intro f i r now hf j hj
    by_cases hji : j = i
    · subst hji
      simpa only [callLeg, Function.update_self] using (hf j hj).call r now
    · simpa only [callLeg, Function.update_of_ne hji] using hf j hj
  unfold after step
  split
  · next n atomic shared _ =>
    simp only [tryConsume, consume]
    split
    · exact consumeIn_keeps hcall _ n _ e.first e.again h
    · exact h
  · next i r _ => exact hcall w.objects i r (e.first i) h

end

/-- Over distinct shipped legs that read one value of their clocks, in every state that calls of the
composition and of the legs lead to, a request is admitted exactly when every leg alone admits it,
and then every leg is charged exactly its units. (Where a shared store refuses, the legs are not
asked; a composition of no legs still refuses what is no count.) -/
theorem conjunction (w₀ : World τ) {builtAt : ℕ → ℚ} (hdistinct : w₀.limit.limiters.Nodup)
    (hnew : ∀ i ∈ w₀.limit.limiters, (w₀.objects i).New (builtAt i))
    (hshipped : ∀ i ∈ w₀.limit.limiters, (w₀.objects i).shipped = true) (events : List Event)
    (n : Number) (atomic : Option Bool) (shared : Shared) (now : ℕ → ℚ) :
    let w := run after w₀ events
    let r := tryConsume w n atomic shared now now
    (pathOf w.limit.degrade shared).2 = true → (∃ q, n = .finite q) ∨ w.limit.limiters ≠ [] →
      (r.2 = .ok true ↔ ∀ i ∈ w.limit.limiters, (w.objects i).Admits n (now i)) ∧
      (r.2 = .ok true → ∀ i ∈ w.limit.limiters, (w.objects i).Charged (r.1.objects i) (units n) (now i)) := by
  intro w r hasked hn
  have hkept : Kept w₀ w :=
    (always_of_step (fun _ e h => after_kept e h) ⟨fun _ => rfl, fun _ => rfl, rfl, rfl⟩ events).last
  have hsound : ∀ i ∈ w.limit.limiters, (w.objects i).Sound := by
    rw [hkept.limiters]
    have hstart : ∀ i ∈ w₀.limit.limiters, (w₀.objects i).Sound := fun i hi =>
      (hnew i hi).sound (hshipped i hi)
    exact (always_of_step (fun v e h => after_sound v e h) hstart events).last
  have hdistinct' : w.limit.limiters.Nodup := by
    rw [hkept.limiters]
    exact hdistinct
  have hr : r.2 = (consumeIn w.limit.limiters n (atomic.getD w.limit.atomicDefault) now now w.objects).2.2 ∧
      r.1.objects = (consumeIn w.limit.limiters n (atomic.getD w.limit.atomicDefault) now now w.objects).1 := by
    have hconsume : consume w n atomic shared now now = _ := if_pos hasked
    show (tryConsume w n atomic shared now now).2 = _ ∧ (tryConsume w n atomic shared now now).1.objects = _
    rw [tryConsume, hconsume]
    exact ⟨rfl, rfl⟩
  rw [hr.1, hr.2]
  by_cases hfinite : ∃ q, n = .finite q
  · obtain ⟨q, rfl⟩ := hfinite
    obtain ⟨count, hunits⟩ : ∃ count, units (.finite q) = count := ⟨_, rfl⟩
    have hcount : ∀ className, assertCount (.finite q) className "tryConsume" = .ok count := fun _ =>
      congrArg Except.ok hunits
    rw [hunits]
    cases count with
    | zero =>
      rw [consumeIn, hcount]
      refine ⟨iff_of_true rfl fun i hi => ?_, fun _ i hi => ?_⟩
      · rw [Leg.Admits, Leg.call_zero hcount (hsound i hi).shipped]
      · exact Leg.charged_zero (w.objects i) (now i)
    | succ want =>
      obtain ⟨hanswer, hcharged⟩ := consumeIn_iff (t := now) hdistinct' hsound hcount
        (atomic.getD w.limit.atomicDefault)
      refine ⟨hanswer.trans (forall₂_congr fun i hi => ?_), hcharged⟩
      rw [Leg.Admits, Leg.Admits, Leg.admits_count hcount (hsound i hi).shipped]
  · -- what is no count throws, and no leg admits it
    have hcount : ∀ className, ∃ e, assertCount n className "tryConsume" = .error e := by
      intro className
      cases n with
      | finite q => exact absurd ⟨q, rfl⟩ hfinite
      | _ => exact ⟨_, rfl⟩
    obtain ⟨e, he⟩ := hcount "PowerRateLimit"
    obtain ⟨i, hi⟩ := List.exists_mem_of_ne_nil _ (hn.resolve_left hfinite)
    rw [consumeIn, he]
    refine ⟨iff_of_false (fun h => by cases h) fun hall => ?_, fun h => by cases h⟩
    exact Leg.not_admits hcount (hsound i hi).shipped (now i) (hall i hi)

/-- One unit of a full bucket and an empty window. -/
theorem conjunction_composed :
    let w := composed [0, 1] true
    let r := tryConsume w (.finite 1) none .ok (fun _ => 0) fun _ => 0
    r.2 = .ok true ∧ ∀ i ∈ w.limit.limiters, (w.objects i).Charged (r.1.objects i) (units (.finite 1)) 0 := by
  intro w r
  have hdone : r.2 = .ok true := by decide +kernel
  have hshipped : ∀ i ∈ w.limit.limiters, (w.objects i).shipped = true := by decide
  have hall := conjunction w (by decide) (fun i _ => limiters_new i) hshipped [] (.finite 1) none .ok
    (fun _ => 0) rfl (Or.inl ⟨1, rfl⟩)
  exact ⟨hdone, hall.2 hdone⟩

end RateLimit

end PerformanceHelpers
