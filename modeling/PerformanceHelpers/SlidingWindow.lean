import PerformanceHelpers.Limiter
import PerformanceHelpers.PowerQueue

/- `PowerSlidingWindow` (`src/helpers/powerSlidingWindow.js`): a limiter that keeps the time of
   every unit it admits in a `PowerQueue`, and forgets those that have left the window.

   What is proved:
     1. `prune_spec` — a prune leaves the times after the threshold, and never fails: what it
        asks the queue to keep is no more than the queue held.
     2. `Recent` — on a clock that does not go back the queue holds the times of the window, as
        they were admitted, through every growth and shrink of the ring.
     3. `window_exact` — so no window ever holds more units than the capacity, a refusal means
        that it would, and a call throws only for more than 2^30 slots. -/
namespace PerformanceHelpers.SlidingWindow

structure Window where
  capacity : ℚ
  windowMs : ℚ
  timestamps : PowerQueue.Queue ℚ

structure Options where
  capacity : Option ℚ := none
  windowMs : Option ℚ := none

/-- The constructor. -/
def new (o : Options) : Except PowerQueue.Failure Window := do
  let capacity ← (assertLimitRequired o.capacity "capacity" "PowerSlidingWindow" 1 1).mapError .throws
  let windowMs ← (assertLimitRequired o.windowMs "windowMs" "PowerSlidingWindow" 1 1000).mapError .throws
  let timestamps ← PowerQueue.new (some PowerQueue.initialCapacity)
  pure { capacity, windowMs, timestamps }

/-- Every timestamp weighs one. -/
abbrev itemWeight : ℚ → ℤ := fun _ => 1

/-- The loop of `_prune`: one `shift` after the other, while the first is not after the
threshold. -/
def pruneLoop (threshold : ℚ) : ℕ → PowerQueue.Queue ℚ → PowerQueue.Queue ℚ
  | 0, q => q
  | turns + 1, q =>
    match (PowerQueue.step itemWeight q .peek).2 with
    | .ok (.item (some t)) =>
      if threshold < t then q else pruneLoop threshold turns (PowerQueue.shift itemWeight q).1
    | _ => q

def prune (w : Window) (now : ℚ) : Window × Except PowerQueue.Failure Unit :=
  let before := w.timestamps.size
  let q := pruneLoop (now - w.windowMs) before w.timestamps
  if q.size < before ∧ before * 2 < q.capacity then
    let r := PowerQueue.shrink q (some before)
    ({ w with timestamps := r.1 }, r.2.map fun _ => ())
  else ({ w with timestamps := q }, .ok ())

def record (q : PowerQueue.Queue ℚ) (now : ℚ) (want : ℕ) : PowerQueue.Queue ℚ × PowerQueue.Outcome ℚ :=
  if want = 1 then PowerQueue.push itemWeight q now else PowerQueue.fill itemWeight q now want

def tryConsume (w : Window) (n : Number) (now : ℚ) : Window × Except PowerQueue.Failure Bool :=
  match assertCount n "PowerSlidingWindow" "tryConsume" with
  | .error e => (w, .error (.throws e))
  | .ok 0 => (w, .ok true)
  | .ok (want + 1) =>
    match prune w now with
    | (w, .error e) => (w, .error e)
    | (w, .ok ()) =>
      if w.timestamps.size + (want + 1 : ℕ) ≤ w.capacity then
        let r := record w.timestamps now (want + 1)
        ({ w with timestamps := r.1 }, r.2.map fun _ => true)
      else (w, .ok false)

def available (w : Window) (now : ℚ) : Window × Except PowerQueue.Failure ℚ :=
  match prune w now with
  | (w, .error e) => (w, .error e)
  | (w, .ok ()) => (w, .ok (max 0 (w.capacity - w.timestamps.size)))

def reset (w : Window) : Window := { w with timestamps := (PowerQueue.clear w.timestamps).1 }

/-- The calls that only admit. -/
inductive Call where
  | tryConsume (n : Number) (now : ℚ)
  | available (now : ℚ)

/-- The reading of the clock at a call. -/
def Call.now : Call → ℚ
  | .tryConsume _ now | .available now => now

/-- The window after a call, and the units it admits. -/
def call (w : Window) : Call → Window × Option (ℚ × ℕ)
  | .tryConsume n now =>
    let r := tryConsume w n now
    (r.1, match r.2 with
      | .ok true => some (now, units n)
      | _ => none)
  | .available now => ((available w now).1, none)

/-! ## Pruning -/

section
variable {w : Window} {q : PowerQueue.Queue ℚ} {xs : List ℚ} {now : ℚ}

/-- A window that holds these times, the oldest first. -/
structure Holds (w : Window) (xs : List ℚ) : Prop where
  queue : PowerQueue.Holds itemWeight w.timestamps xs
  sorted : xs.Pairwise (· ≤ ·)

theorem holds_new {o : Options} (h : new o = .ok w) : Holds w [] ∧ 1 ≤ w.capacity := by
  obtain ⟨capacity, hcapacity, h⟩ := bind_eq_ok.mp h
  obtain ⟨windowMs, hwindowMs, h⟩ := bind_eq_ok.mp h
  obtain ⟨q, hq, h⟩ := bind_eq_ok.mp h
  cases h
  exact ⟨⟨PowerQueue.Holds.new hq, List.Pairwise.nil⟩,
    assertLimitRequired_ge (mapError_eq_ok.mp hcapacity) le_rfl⟩

theorem filter_lt_of_head {threshold t : ℚ} {ts : List ℚ} (hsorted : (t :: ts).Pairwise (· ≤ ·))
    (h : threshold < t) : (t :: ts).filter (threshold < ·) = t :: ts := by
  refine List.filter_eq_self.mpr fun t' ht' => ?_
  rcases List.mem_cons.mp ht' with rfl | ht'
  · simpa using h
  · have := (List.pairwise_cons.mp hsorted).1 t' ht'
    simpa using h.trans_le this

/-- The times that a prune leaves, in whatever order they are. -/
def kept (w : Window) (now : ℚ) (xs : List ℚ) : List ℚ := xs.dropWhile fun t => !decide (now - w.windowMs < t)

/-- In order, they are those after the threshold. -/
theorem kept_eq_filter (w : Window) (now : ℚ) (hsorted : xs.Pairwise (· ≤ ·)) :
    kept w now xs = xs.filter (now - w.windowMs < ·) := by
  induction xs with
  | nil => rfl
  | cons t ts ih =>
    unfold kept at ih ⊢
    by_cases h : now - w.windowMs < t
    · rw [filter_lt_of_head hsorted h, List.dropWhile_cons_of_neg (by simpa using h)]
    · rw [List.filter_cons_of_neg (by simpa using h), List.dropWhile_cons_of_pos (by simpa using h)]
      exact ih hsorted.tail

theorem pruneLoop_kept (threshold : ℚ) (hq : PowerQueue.Holds itemWeight q xs) (turns : ℕ)
    (hturns : xs.length ≤ turns) :
    PowerQueue.Holds itemWeight (pruneLoop threshold turns q) (xs.dropWhile fun t => !decide (threshold < t)) := by
  induction turns generalizing q xs with
  | zero =>
    obtain rfl := List.length_eq_zero_iff.mp (Nat.le_zero.mp hturns)
    exact hq
  | succ turns ih =>
    have hpeek : (PowerQueue.step itemWeight q .peek).2 = .ok (.item xs.head?) :=
      (hq.step (show PowerQueue.SlotsOk q .peek from trivial)).1
    rw [pruneLoop, hpeek]
    cases xs with
    | nil => exact hq
    | cons t ts =>
      simp only [List.head?_cons]
      by_cases h : threshold < t
      · rw [if_pos h, List.dropWhile_cons_of_neg (by simpa using h)]
        exact hq
      · rw [if_neg h, List.dropWhile_cons_of_pos (by simpa using h)]
        exact ih hq.shift.2 (by simpa using hturns)

structure Same (w w' : Window) : Prop where
  capacity : w'.capacity = w.capacity
  windowMs : w'.windowMs = w.windowMs

theorem Same.between {w₁ w₂ w₁' w₂' : Window} (h : Same w₁ w₂) (h₁ : Same w₁ w₁') (h₂ : Same w₂ w₂') :
    Same w₁' w₂' where
  capacity := h₂.capacity.trans (h.capacity.trans h₁.capacity.symm)
  windowMs := h₂.windowMs.trans (h.windowMs.trans h₁.windowMs.symm)

/-- A prune leaves the times it keeps, and never fails. -/
theorem prune_kept (h : PowerQueue.Holds itemWeight w.timestamps xs) (now : ℚ) :
    ∃ w', prune w now = (w', .ok ()) ∧ Same w w' ∧ PowerQueue.Holds itemWeight w'.timestamps (kept w now xs) := by
  have hq := pruneLoop_kept (now - w.windowMs) h w.timestamps.size h.size.ge
  unfold prune
  dsimp only
  split
  · -- the queue is asked to keep what it held before
    have hle : ((w.timestamps.size : ℕ) : ℚ) ≤ 2 ^ 30 := by
      rw [h.size]
      exact_mod_cast h.size_le
    have hnonneg : ¬((w.timestamps.size : ℚ) < 0) := not_lt.mpr (Nat.cast_nonneg _)
    have hmin : assertLimitRequired (some (w.timestamps.size : ℚ)) "minimum" "PowerQueue" 0
        PowerQueue.initialCapacity = .ok (w.timestamps.size : ℚ) := if_neg hnonneg
    obtain ⟨hdone, hshrunk⟩ := hq.shrink hmin hle
    exact ⟨_, Prod.ext rfl (by rw [hdone]; rfl), ⟨rfl, rfl⟩, hshrunk⟩
  · exact ⟨_, rfl, ⟨rfl, rfl⟩, hq⟩

theorem prune_spec (h : Holds w xs) (now : ℚ) : (prune w now).2 = .ok () ∧ Same w (prune w now).1 ∧
    Holds (prune w now).1 (xs.filter (now - w.windowMs < ·)) := by
  obtain ⟨w', hpruned, hsame, hq⟩ := prune_kept h.queue now
  rw [kept_eq_filter w now h.sorted] at hq
  rw [hpruned]
  exact ⟨rfl, hsame, hq, h.sorted.filter _⟩

theorem assertFill_nat (n : ℕ) : PowerQueue.assertFill n = .ok n := by
  have hnonneg : ¬((n : ℚ) < 0) := not_lt.mpr (Nat.cast_nonneg n)
  unfold PowerQueue.assertFill
  rw [if_neg (by simp)]
  simp only [assertLimitRequired, if_neg hnonneg]
  simp

/-- The times are written, or there is no slot for them. -/
theorem record_spec (hq : PowerQueue.Holds itemWeight q xs) (now : ℚ) {want : ℕ} (h0 : 0 < want) :
    (∃ answer, (record q now want).2 = .ok answer ∧
      PowerQueue.Holds itemWeight (record q now want).1 (xs ++ List.replicate want now)) ∨
    2 ^ 30 < xs.length + want ∧ PowerQueue.Throws itemWeight (record q now want) xs := by
  unfold record
  by_cases hroom : xs.length + want ≤ 2 ^ 30
  · refine Or.inl ?_
    split
    · next hone =>
      subst hone
      exact ⟨_, hq.push (by omega)⟩
    · exact ⟨_, hq.fill (assertFill_nat want) hroom⟩
  · refine Or.inr ⟨by omega, ?_⟩
    split
    · next hone => exact hq.push_throws (by omega)
    · exact hq.fill_throws (assertFill_nat want) (by omega)

/-! ## The calls, on the times -/

def consumeTimes (capacity : ℚ) (xs : List ℚ) (now : ℚ) (want : ℕ) : List ℚ × Option Bool :=
  if xs.length + (want : ℚ) ≤ capacity then
    if 2 ^ 30 < xs.length + want then (xs, none) else (xs ++ List.replicate want now, some true)
  else (xs, some false)

theorem tryConsume_kept (h : PowerQueue.Holds itemWeight w.timestamps xs) {n : Number} {want : ℕ}
    (hcount : assertCount n "PowerSlidingWindow" "tryConsume" = .ok (want + 1)) (now : ℚ) :
    let r := consumeTimes w.capacity (kept w now xs) now (want + 1)
    Same w (tryConsume w n now).1 ∧ PowerQueue.Holds itemWeight (tryConsume w n now).1.timestamps r.1 ∧
      (tryConsume w n now).2.toOption = r.2 := by
  obtain ⟨w', hpruned, hsame, hq⟩ := prune_kept h now
  generalize kept w now xs = ys at hq
  dsimp only
  have hr : tryConsume w n now =
      if (w'.timestamps.size : ℚ) + (want + 1 : ℕ) ≤ w'.capacity then
        ({ w' with timestamps := (record w'.timestamps now (want + 1)).1 },
          (record w'.timestamps now (want + 1)).2.map fun _ => true)
      else (w', .ok false) := by
    simp only [tryConsume, hcount, hpruned]
  rw [hr, consumeTimes, hsame.capacity, hq.size]
  by_cases hfits : (ys.length : ℚ) + (want + 1 : ℕ) ≤ w.capacity
  · rw [if_pos hfits, if_pos hfits]
    rcases record_spec hq now (Nat.succ_pos want) with ⟨answer, hanswer, hq'⟩ | ⟨hmany, ⟨error, herror⟩, hq'⟩
    · have hfew := hq'.size_le
      rw [List.length_append, List.length_replicate] at hfew
      rw [if_neg (not_lt.mpr hfew)]
      exact ⟨⟨rfl, hsame.windowMs⟩, hq', by rw [hanswer]; rfl⟩
    · rw [if_pos hmany]
      exact ⟨⟨rfl, hsame.windowMs⟩, hq', by rw [herror]; rfl⟩
  · rw [if_neg hfits, if_neg hfits]
    exact ⟨hsame, hq, rfl⟩

/-- What is recorded at the end keeps the order. -/
theorem sorted_consumeTimes (capacity : ℚ) (hsorted : xs.Pairwise (· ≤ ·)) (hle : ∀ t ∈ xs, t ≤ now)
    (want : ℕ) : (consumeTimes capacity xs now want).1.Pairwise (· ≤ ·) := by
  unfold consumeTimes
  split
  · split
    · exact hsorted
    · refine List.pairwise_append.mpr ⟨hsorted, List.pairwise_replicate.mpr (Or.inr le_rfl), ?_⟩
      intro a ha b hb
      rw [List.eq_of_mem_replicate hb]
      exact hle a ha
  · exact hsorted

theorem tryConsume_spec (h : Holds w xs) (hle : ∀ t ∈ xs, t ≤ now) {n : Number} {want : ℕ}
    (hcount : assertCount n "PowerSlidingWindow" "tryConsume" = .ok (want + 1)) :
    let r := consumeTimes w.capacity (xs.filter (now - w.windowMs < ·)) now (want + 1)
    Same w (tryConsume w n now).1 ∧ Holds (tryConsume w n now).1 r.1 ∧
      (tryConsume w n now).2.toOption = r.2 := by
  obtain ⟨hsame, hq, hanswer⟩ := tryConsume_kept h.queue hcount now
  rw [kept_eq_filter w now h.sorted] at hq hanswer
  refine ⟨hsame, ⟨hq, sorted_consumeTimes _ (h.sorted.filter _) (fun t ht => ?_) _⟩, hanswer⟩
  exact hle t (List.mem_filter.mp ht).1

/-- Room that is there is there later. -/
theorem tryConsume_room (h : Holds w xs) (hle : ∀ t ∈ xs, t ≤ now) {n : Number} {want : ℕ}
    (hcount : assertCount n "PowerSlidingWindow" "tryConsume" = .ok (want + 1))
    (hroom : xs.length + ((want + 1 : ℕ) : ℚ) ≤ w.capacity) : (tryConsume w n now).2 ≠ .ok false := by
  obtain ⟨-, -, hanswer⟩ := tryConsume_spec h hle hcount
  have hfewer : ((xs.filter (now - w.windowMs < ·)).length : ℚ) ≤ xs.length := by
    exact_mod_cast List.length_filter_le _ _
  intro hfalse
  rw [hfalse, consumeTimes, if_pos (by linarith)] at hanswer
  split at hanswer <;> cases hanswer

theorem available_kept (h : PowerQueue.Holds itemWeight w.timestamps xs) (now : ℚ) :
    Same w (available w now).1 ∧ PowerQueue.Holds itemWeight (available w now).1.timestamps (kept w now xs) ∧
      (available w now).2 = .ok (max 0 (w.capacity - (kept w now xs).length)) := by
  obtain ⟨w', hpruned, hsame, hq⟩ := prune_kept h now
  simp only [available, hpruned]
  rw [hsame.capacity, hq.size]
  exact ⟨hsame, hq, rfl⟩

theorem available_spec (h : Holds w xs) (now : ℚ) :
    let ys := xs.filter (now - w.windowMs < ·)
    Same w (available w now).1 ∧ Holds (available w now).1 ys ∧
      (available w now).2 = .ok (max 0 (w.capacity - ys.length)) := by
  obtain ⟨hsame, hq, hanswer⟩ := available_kept h.queue now
  rw [kept_eq_filter w now h.sorted] at hq hanswer
  exact ⟨hsame, ⟨hq, h.sorted.filter _⟩, hanswer⟩

theorem holds_reset (h : Holds w xs) : Holds (reset w) [] :=
  ⟨h.queue.clear.2, List.Pairwise.nil⟩

/-! ## The units of a window -/

/-- The units admitted in the window that ends at a time. -/
abbrev unitsIn (windowMs t : ℚ) (log : List (ℚ × ℕ)) : ℕ :=
  unitsAt (fun a => t - windowMs < a ∧ a ≤ t) log

/-- The window holds what was admitted, as far as any reading from `now` on can see. -/
structure Recent (w : Window) (log : List (ℚ × ℕ)) (now : ℚ) (xs : List ℚ) : Prop where
  holds : Holds w xs
  kept : ∀ t, now - w.windowMs ≤ t → xs.filter (t < ·) = (stamps log).filter (t < ·)
  le : ∀ t ∈ xs, t ≤ now
  log_le : ∀ t ∈ stamps log, t ≤ now

def Full (w : Window) (log : List (ℚ × ℕ)) : Prop := ∀ t, (unitsIn w.windowMs t log : ℚ) ≤ w.capacity

variable {w' : Window} {log : List (ℚ × ℕ)} {now' : ℚ}

theorem Recent.later (h : Recent w log now xs) (hle : now ≤ now') : Recent w log now' xs where
  holds := h.holds
  kept t ht := h.kept t (by linarith)
  le t ht := (h.le t ht).trans hle
  log_le t ht := (h.log_le t ht).trans hle

/-- Nothing was admitted after the reading. -/
theorem Recent.unitsIn_le (h : Recent w log now xs) {t : ℚ} (ht : now ≤ t) :
    unitsIn w.windowMs t log ≤ unitsIn w.windowMs now log := by
  rw [unitsIn, unitsIn, unitsAt_eq_countP, unitsAt_eq_countP]
  refine List.countP_mono_left fun a ha hin => ?_
  simp only [decide_eq_true_eq] at hin ⊢
  exact ⟨by linarith, h.log_le a ha⟩

abbrev inWindow (w : Window) (log : List (ℚ × ℕ)) (now : ℚ) : List ℚ :=
  (stamps log).filter (now - w.windowMs < ·)

theorem Recent.pruned (h : Recent w log now xs) : ∃ w', prune w now = (w', .ok ()) ∧ Same w w' ∧
    Recent w' log now (inWindow w log now) ∧ w'.timestamps.size = unitsIn w.windowMs now log := by
  obtain ⟨hok, hsame, hholds⟩ := prune_spec h.holds now
  have hxs := h.kept (now - w.windowMs) le_rfl
  rw [hxs] at hholds
  refine ⟨_, Prod.ext rfl hok, hsame, ⟨hholds, fun t ht => ?_, fun t ht => ?_, h.log_le⟩, ?_⟩
  · rw [hsame.windowMs] at ht
    rw [List.filter_filter]
    refine List.filter_congr fun a _ => ?_
    simp only [Bool.and_eq_left_iff_imp, decide_eq_true_eq]
    intro hlt
    exact ht.trans_lt hlt
  · exact h.log_le t (List.mem_filter.mp ht).1
  · rw [hholds.queue.size, unitsIn, unitsAt_eq_countP, ← List.countP_eq_length_filter]
    refine List.countP_congr fun a ha => ?_
    simp [h.log_le a ha]

theorem Full.same (hfull : Full w log) (hsame : Same w w') : Full w' log := by
  simpa only [Full, hsame.capacity, hsame.windowMs] using hfull

/-- What the window keeps is what was admitted, with the units of a call. -/
theorem Recent.record (h : Recent w log now xs) {want : ℕ} {q : PowerQueue.Queue ℚ}
    (hq : PowerQueue.Holds itemWeight q (xs ++ List.replicate want now)) :
    Recent { w with timestamps := q } (log ++ [(now, want)]) now (xs ++ List.replicate want now) := by
  refine ⟨⟨hq, List.pairwise_append.mpr ⟨h.holds.sorted, ?_, ?_⟩⟩, fun t ht => ?_, fun t ht => ?_,
    fun t ht => ?_⟩
  · exact List.pairwise_replicate.mpr (Or.inr le_rfl)
  · intro a ha b hb
    rw [List.eq_of_mem_replicate hb]
    exact h.le a ha
  · rw [stamps_append, stamps_single, List.filter_append, List.filter_append, h.kept t ht]
  · rcases List.mem_append.mp ht with ht | ht
    · exact h.le t ht
    · exact (List.eq_of_mem_replicate ht).le
  · rw [stamps_append, stamps_single] at ht
    rcases List.mem_append.mp ht with ht | ht
    · exact h.log_le t ht
    · exact (List.eq_of_mem_replicate ht).le

theorem Full.record (hfull : Full w log) (h : Recent w log now xs) {want : ℕ}
    (hfits : (unitsIn w.windowMs now log + want : ℚ) ≤ w.capacity) :
    Full w (log ++ [(now, want)]) := by
  intro t
  rw [unitsIn, unitsAt_append, unitsAt_single]
  by_cases hin : t - w.windowMs < now ∧ now ≤ t
  · have hle : (unitsIn w.windowMs t log : ℚ) ≤ unitsIn w.windowMs now log := by
      exact_mod_cast h.unitsIn_le hin.2
    rw [if_pos hin]
    push_cast
    linarith
  · rw [if_neg hin]
    exact hfull t

/-! ## The calls -/

/-- An answer to a count, by what the window has room for. -/
def Answers (w : Window) (log : List (ℚ × ℕ)) (n : Number) (now : ℚ) : Except PowerQueue.Failure Bool → Prop
  | .ok true => (unitsIn w.windowMs now log + units n : ℚ) ≤ w.capacity
  | .ok false => w.capacity < unitsIn w.windowMs now log + units n
  | .error _ => (∃ e, assertCount n "PowerSlidingWindow" "tryConsume" = .error e) ∨
      2 ^ 30 < unitsIn w.windowMs now log + units n

/-- What a call answers is exact. -/
def Exact (s : Window × List (ℚ × ℕ)) : Call → Prop
  | .tryConsume n now => Answers s.1 s.2 n now (tryConsume s.1 n now).2
  | .available now => (available s.1 now).2 = .ok (s.1.capacity - unitsIn s.1.windowMs now s.2)

/-- What a call keeps. -/
structure Keeps (w w' : Window) (log : List (ℚ × ℕ)) (now : ℚ) : Prop where
  same : Same w w'
  full : Full w' log
  recent : ∃ xs, Recent w' log now xs

theorem tryConsume_keeps (hfull : Full w log) (h : Recent w log now xs) (n : Number) :
    Answers w log n now (tryConsume w n now).2 ∧
      Keeps w (call w (.tryConsume n now)).1 (log ++ (call w (.tryConsume n now)).2.toList) now := by
  have hfirst := hfull now
  simp only [call]
  cases hcount : assertCount n "PowerSlidingWindow" "tryConsume" with
  | error e =>
    have hr : tryConsume w n now = (w, .error (.throws e)) := by simp only [tryConsume, hcount]
    rw [hr]
    exact ⟨Or.inl ⟨e, hcount⟩, ⟨rfl, rfl⟩, by simpa using hfull, xs, by simpa using h⟩
  | ok want =>
    rw [units_eq hcount]
    cases want with
    | zero =>
      have hr : tryConsume w n now = (w, .ok true) := by simp only [tryConsume, hcount]
      have hrecord : Full w (log ++ [(now, 0)]) := hfull.record h (by simpa using hfirst)
      rw [hr]
      refine ⟨?_, ⟨rfl, rfl⟩, hrecord, xs, ?_⟩
      · simpa [Answers, units_eq hcount] using hfirst
      · exact ⟨h.holds, by simpa [stamps_append, stamps_single] using h.kept, h.le,
          by simpa [stamps_append, stamps_single] using h.log_le⟩
    | succ want =>
      obtain ⟨w', hpruned, hsame, hrecent, hsize⟩ := h.pruned
      have hr : tryConsume w n now =
          if (w'.timestamps.size : ℚ) + (want + 1 : ℕ) ≤ w'.capacity then
            ({ w' with timestamps := (record w'.timestamps now (want + 1)).1 },
              (record w'.timestamps now (want + 1)).2.map fun _ => true)
          else (w', .ok false) := by
        simp only [tryConsume, hcount, hpruned]
      have hunits := units_eq hcount
      by_cases hfits : (w'.timestamps.size : ℚ) + (want + 1 : ℕ) ≤ w'.capacity
      · rw [if_pos hfits] at hr
        rw [hsize, hsame.capacity] at hfits
        have hsame' : Same w { w' with timestamps := (record w'.timestamps now (want + 1)).1 } :=
          ⟨hsame.capacity, hsame.windowMs⟩
        rcases record_spec hrecent.holds.queue now (Nat.succ_pos want) with
          ⟨answer, hanswer, hq⟩ | ⟨hmany, ⟨error, herror⟩, hq⟩
        · -- the units are recorded
          rw [hanswer] at hr
          rw [hr]
          refine ⟨?_, hsame', (hfull.record h hfits).same hsame', _, hrecent.record hq⟩
          rwa [← hunits] at hfits
        · -- there is no slot for them
          rw [herror] at hr
          rw [hr]
          have hkept : Recent { w' with timestamps := (record w'.timestamps now (want + 1)).1 } log now
              (inWindow w log now) :=
            ⟨⟨hq, hrecent.holds.sorted⟩, hrecent.kept, hrecent.le, hrecent.log_le⟩
          have hfull' := hfull.same hsame'
          refine ⟨Or.inr ?_, hsame', by simpa [Except.map] using hfull', _,
            by simpa [Except.map] using hkept⟩
          rw [hunits]
          rwa [← hrecent.holds.queue.size, hsize] at hmany
      · rw [if_neg hfits] at hr
        rw [hr]
        refine ⟨?_, hsame, by simpa using hfull.same hsame, _, by simpa using hrecent⟩
        rwa [hsize, hsame.capacity, ← hunits, not_le] at hfits

theorem available_keeps (hfull : Full w log) (h : Recent w log now xs) :
    Exact (w, log) (.available now) ∧
      Keeps w (call w (.available now)).1 (log ++ (call w (.available now)).2.toList) now := by
  obtain ⟨w', hpruned, hsame, hrecent, hsize⟩ := h.pruned
  have hr : available w now = (w', .ok (w.capacity - unitsIn w.windowMs now log)) := by
    have hroom := hfull now
    rw [available, hpruned]
    simp only [hsize, hsame.capacity]
    rw [max_eq_right (by linarith)]
  simp only [Exact, call, hr]
  refine ⟨trivial, hsame, ?_, _, by simpa using hrecent⟩
  simpa using hfull.same hsame

theorem call_keeps (hfull : Full w log) (c : Call) (h : Recent w log c.now xs) :
    Exact (w, log) c ∧ Keeps w (call w c).1 (log ++ (call w c).2.toList) c.now := by
  cases c with
  | tryConsume n now => exact tryConsume_keeps hfull h n
  | available now => exact available_keeps hfull h

end

/-- On a clock that does not go back, no window holds more units than the capacity, and every
call answers exactly what the window has room for. -/
theorem window_exact {o : Options} {w : Window} (hnew : new o = .ok w) (calls : List Call)
    (hclock : (calls.map Call.now).Pairwise (· ≤ ·)) :
    Always (logged call) (fun s => ∀ t, (unitsAt (fun a => t - w.windowMs < a ∧ a ≤ t) s.2 : ℚ) ≤ w.capacity)
      (w, []) calls ∧ Meets (logged call) Exact (w, []) calls := by
  obtain ⟨hholds, hcapacity⟩ := holds_new hnew
  have hstep : ∀ (s : Window × List (ℚ × ℕ)) c, Same w s.1 ∧ Full s.1 s.2 →
      (∃ xs, Recent s.1 s.2 c.now xs) → Exact s c ∧ (Same w (logged call s c).1 ∧
        Full (logged call s c).1 (logged call s c).2) ∧
          ∃ xs, Recent (logged call s c).1 (logged call s c).2 c.now xs := by
    rintro s c ⟨hsame, hfull⟩ ⟨xs, hrecent⟩
    obtain ⟨hexact, hkeeps⟩ := call_keeps hfull c hrecent
    exact ⟨hexact, ⟨⟨hkeeps.same.capacity.trans hsame.capacity,
      hkeeps.same.windowMs.trans hsame.windowMs⟩, hkeeps.full⟩, hkeeps.recent⟩
  have hfresh : ∀ now, Recent w [] now [] := fun now =>
    ⟨hholds, fun _ _ => rfl, fun t ht => absurd ht List.not_mem_nil, fun t ht => absurd ht List.not_mem_nil⟩
  have hstart : Same w w ∧ Full w [] := by
    refine ⟨⟨rfl, rfl⟩, fun t => ?_⟩
    simp only [unitsAt_nil, Nat.cast_zero]
    exact zero_le_one.trans hcapacity
  have hmeets : Meets (logged call) (fun s c => ∃ xs, Recent s.1 s.2 c.now xs) (w, []) calls :=
    meets_of_clock (P := fun s => Same w s.1 ∧ Full s.1 s.2) Call.now
    (fun s t => ∃ xs, Recent s.1 s.2 t xs)
    (fun s t t' ⟨xs, h⟩ hle => ⟨xs, h.later hle⟩) (fun s c hP hR => (hstep s c hP hR).2) hstart
    (fun c _ => ⟨[], hfresh c.now⟩) hclock
  have hall := always_of_meets (fun s c hP hR => (hstep s c hP hR).2.1) hstart hmeets
  refine ⟨hall.mono fun s hs t => ?_, hmeets.imp (fun s c hP hR => (hstep s c hP hR).2.1)
    (fun s c hP hR => (hstep s c hP hR).1) hstart⟩
  have hcap := hs.2 t
  rwa [hs.1.capacity, hs.1.windowMs] at hcap

def threeInTen : Options := { capacity := some 3, windowMs := some 10 }

theorem new_threeInTen : new threeInTen = .ok ⟨3, 10, ⟨16, fun _ => none, 0, 0, 0, 0⟩⟩ := by
  have h : ¬(3 : ℚ) < 1 := by norm_num
  have h' : ¬(10 : ℚ) < 1 := by norm_num
  simp only [new, threeInTen, assertLimitRequired, if_neg h, if_neg h']
  rfl

theorem window_exact_threeInTen : ∃ w, new threeInTen = .ok w ∧
    let calls : List Call := [.tryConsume (.finite 2) 0, .tryConsume (.finite 2) 9, .available 9,
      .tryConsume (.finite 1) 9, .tryConsume (.finite 2) 10]
    Always (logged call) (fun s => ∀ t, (unitsAt (fun a => t - w.windowMs < a ∧ a ≤ t) s.2 : ℚ) ≤ w.capacity)
      (w, []) calls ∧ Meets (logged call) Exact (w, []) calls :=
  ⟨_, new_threeInTen, window_exact new_threeInTen _ (by decide +kernel)⟩

end PerformanceHelpers.SlidingWindow
