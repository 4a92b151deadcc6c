import PerformanceHelpers.Gcra
import PerformanceHelpers.SlidingWindow
import PerformanceHelpers.Throttle

/- `PowerRateLimit` (`src/helpers/powerRateLimit.js`): limiters that are asked together, each
   of which must admit.

   The legs are objects that are also called directly, so a composition lists them by number.
   A leg reads its own clock, or is handed the composition's reading: what it reads at the
   pre-flight and what it reads at the commit are part of a call.

   What is proved:
     1. `Leg.call_alike` — two states of a leg that a refill or a prune brings together answer
        every call alike from then on.
     2. `preflight_alike`, `commit_refused` — a pre-flight leaves every leg alike, and after it
        no shipped leg refuses.
     3. `refused_untouched` — so over distinct legs and on clocks that do not go back, after a
        refusal every leg answers every later run of calls as if the request had not been made,
        or the composition was not atomic and a third-party leg refused: then the legs before
        it keep their charge, and those alone. -/
namespace PerformanceHelpers.RateLimit
open Function (update_self update_of_ne update)

/-! ## The legs -/

/-- The methods of a limiter. `other` are those of a `PowerGCRA` that wait or measure. -/
inductive Method where
  | tryConsume | reserve | release | rollback | addTokens | available | reset | setRate | other
  deriving DecidableEq

inductive Request where
  | tryConsume (n : Number)
  | reserve (n : Number)
  | release (token : ℕ)
  | rollback (n : ℕ)
  | addTokens (n : Number)
  | available
  | reset (count : Option Number)
  | setRate (rate : Number)
  | other (c : Gcra.Call)

def Request.method : Request → Method
  | .tryConsume _ => .tryConsume
  | .reserve _ => .reserve
  | .release _ => .release
  | .rollback _ => .rollback
  | .addTokens _ => .addTokens
  | .available => .available
  | .reset _ => .reset
  | .setRate _ => .setRate
  | .other _ => .other

inductive Answer where
  | admits (ok : Bool)
  | token (token : Option ℕ)
  | room (n : ℚ)
  | done
  | other (admitted : Option (ℚ × ℕ))
  deriving DecidableEq

def Answer.truthy : Answer → Bool
  | .admits ok => ok
  | .token t => t.isSome
  | .room n => n ≠ 0
  | .done => false
  | .other _ => true

/-- `answer < want`, which what is no number is not. -/
def Answer.below (want : ℕ) : Answer → Bool
  | .room n => n < want
  | _ => false

structure RateLimiterLike (τ : Type) where
  has : Method → Bool
  call : τ → Request → ℚ → τ × Except String Answer

inductive Leg (τ : Type) where
  | gcra (l : Gcra.Limiter)
  | throttle (l : Throttle.Limiter)
  | window (w : SlidingWindow.Window)
  | thirdParty (like : RateLimiterLike τ) (state : τ)

variable {τ : Type}

def Leg.shipped : Leg τ → Bool
  | .thirdParty _ _ => false
  | _ => true

def Leg.has : Leg τ → Method → Bool
  | .gcra _, m => m ∈ [.tryConsume, .available, .reset, .setRate, .other]
  | .throttle _, m =>
    m ∈ [.tryConsume, .reserve, .release, .rollback, .addTokens, .available, .reset]
  | .window _, m => m ∈ [.tryConsume, .available, .reset]
  | .thirdParty like _, m => like.has m

def notAFunction : Except String Answer := .error "TypeError: not a function"

def callGcra (l : Gcra.Limiter) (r : Request) (now : ℚ) : Gcra.Limiter × Except String Answer :=
  match r with
  | .tryConsume n =>
    let r := Gcra.tryConsume l n now
    (r.1, r.2.map .admits)
  | .available => (l, .ok (.room (Gcra.available l now)))
  | .reset _ => (Gcra.reset l, .ok .done)
  | .setRate rate =>
    let r := Gcra.setRate l rate
    (r.1, r.2.map fun _ => .done)
  | .other c =>
    let r := Gcra.call l c
    (r.1, .ok (.other r.2))
  | _ => (l, notAFunction)

def callThrottle (l : Throttle.Limiter) (r : Request) (now : ℚ) : Throttle.Limiter × Except String Answer :=
  match r with
  | .tryConsume n =>
    let r := Throttle.tryConsume l n now
    (r.1, r.2.map .admits)
  | .reserve n =>
    let r := Throttle.reserve l n now
    (r.1, r.2.map .token)
  | .release n | .rollback n => (Throttle.release l n, .ok .done)
  | .addTokens n =>
    let r := Throttle.addTokens l n
    (r.1, r.2.map fun _ => .done)
  | .available =>
    let r := Throttle.available l now
    (r.1, .ok (.room r.2))
  | .reset count => (Throttle.reset l count now, .ok .done)
  | _ => (l, notAFunction)

def windowError : PowerQueue.Failure → String
  | .throws e => e
  | .hangs => ""

def callWindow (w : SlidingWindow.Window) (r : Request) (now : ℚ) :
    SlidingWindow.Window × Except String Answer :=
  match r with
  | .tryConsume n =>
    let r := SlidingWindow.tryConsume w n now
    (r.1, (r.2.mapError windowError).map .admits)
  | .available =>
    let r := SlidingWindow.available w now
    (r.1, (r.2.mapError windowError).map .room)
  | .reset _ => (SlidingWindow.reset w, .ok .done)
  | _ => (w, notAFunction)

/-- A leg is called at a reading. -/
def Leg.call (l : Leg τ) (r : Request) (now : ℚ) : Leg τ × Except String Answer :=
  match l with
  | .gcra l => ((callGcra l r now).map .gcra id)
  | .throttle l => ((callThrottle l r now).map .throttle id)
  | .window w => ((callWindow w r now).map .window id)
  | .thirdParty like state =>
    if like.has r.method then (like.call state r now).map (.thirdParty like) id
    else (.thirdParty like state, notAFunction)

/-! ## A request to all legs -/

abbrev Objects (τ : Type) := ℕ → Leg τ

def callLeg (f : Objects τ) (i : ℕ) (r : Request) (now : ℚ) : Objects τ × Except String Answer :=
  (Function.update f i ((f i).call r now).1, ((f i).call r now).2)

inductive Preflight where
  | refused
  /-- A leg's `available()` threw. -/
  | failed
  | passed (allHaveAvailable : Bool)
  deriving DecidableEq

/-- The pre-flight: every leg that can tell is asked whether it can afford the request. -/
def preflight (want : ℕ) (now : ℕ → ℚ) : List ℕ → Bool → Objects τ → Objects τ × Preflight
  | [], allHaveAvailable, f => (f, .passed allHaveAvailable)
  | i :: legs, allHaveAvailable, f =>
    if (f i).has .available then
      match callLeg f i .available (now i) with
      | (f, .error _) => (f, .failed)
      | (f, .ok answer) =>
        if answer.below want then (f, .refused) else preflight want now legs allHaveAvailable f
    else preflight want now legs false f

def commit (want : ℕ) (now : ℕ → ℚ) : List ℕ → Objects τ → Objects τ × Except String Bool
  | [], f => (f, .ok true)
  | i :: legs, f =>
    match callLeg f i (.tryConsume (.finite want)) (now i) with
    | (f, .error e) => (f, .error e)
    | (f, .ok answer) => if answer.truthy then commit want now legs f else (f, .ok false)

/-- `_undoCommit` of a leg that was charged without a token, or has no `release`. What is thrown
is swallowed. -/
def undoCount (want : ℕ) (now : ℕ → ℚ) (f : Objects τ) (i : ℕ) : Objects τ :=
  if (f i).has .rollback then (callLeg f i (.rollback want) (now i)).1
  else if (f i).has .addTokens then (callLeg f i (.addTokens (.finite want)) (now i)).1
  else if (f i).has .reset then (callLeg f i (.reset none) (now i)).1
  else f

def undoCommit (want : ℕ) (now : ℕ → ℚ) (f : Objects τ) (entry : ℕ × Option ℕ) : Objects τ :=
  match entry with
  | (i, some token) =>
    if (f i).has .release then (callLeg f i (.release token) (now i)).1 else undoCount want now f i
  | (i, none) => undoCount want now f i

/-- The commit that undoes what it committed when a leg does not admit. The last committed is
the first of the list. -/
def commitOrUndo (want : ℕ) (now : ℕ → ℚ) : List ℕ → List (ℕ × Option ℕ) → Objects τ → Objects τ × Bool
  | [], _, f => (f, true)
  | i :: legs, committed, f =>
    if (f i).has .reserve then
      match callLeg f i (.reserve (.finite want)) (now i) with
      | (f, .ok (.token (some token))) => commitOrUndo want now legs ((i, some token) :: committed) f
      | (f, _) => (committed.foldl (undoCommit want now) f, false)
    else
      match callLeg f i (.tryConsume (.finite want)) (now i) with
      | (f, .ok (.admits true)) => commitOrUndo want now legs ((i, none) :: committed) f
      | (f, _) => (committed.foldl (undoCommit want now) f, false)

def supportsUndo (l : Leg τ) : Bool :=
  l.has .available || l.has .reserve || l.has .release || l.has .addTokens || l.has .rollback

/-- `_consumeIn`: what it answers, and the leg errors it counts. -/
def consumeIn (legs : List ℕ) (n : Number) (atomic : Bool) (first again : ℕ → ℚ) (f : Objects τ) :
    Objects τ × ℕ × Except String Bool :=
  match assertCount n "PowerRateLimit" "tryConsume" with
  | .error e => (f, 0, .error e)
  | .ok 0 => (f, 0, .ok true)
  | .ok (want + 1) =>
    if legs.all fun i => (f i).has .tryConsume || (f i).has .reserve then
      match preflight (want + 1) first legs true f with
      | (f, .refused) => (f, 0, .ok false)
      | (f, .failed) => (f, 1, .ok false)
      | (f, .passed allHaveAvailable) =>
        if !atomic || allHaveAvailable then
          let r := commit (want + 1) again legs f
          (r.1, 0, r.2)
        else if legs.all fun i => supportsUndo (f i) then
          let r := commitOrUndo (want + 1) again legs [] f
          (r.1, 0, .ok r.2)
        else (f, 0, .ok false)
    else (f, 0, .error "limiter must implement tryConsume or reserve")

/-! ## The composition -/

inductive Degrade where
  | local
  | failClosed

inductive Path where
  | shared
  | sharedDenied
  | local
  | failClosed
  deriving DecidableEq

/-- What the shared store answers to a request. -/
inductive Shared where
  | ok
  | denied
  | throws

/-- The fields of a `PowerRateLimit`. -/
structure Composer where
  limiters : List ℕ
  atomicDefault : Bool
  /-- `none` is a composition without a `sharedState`. -/
  degrade : Option Degrade
  lastPath : Option Path
  requests : ℕ
  rejected : ℕ
  legErrors : ℕ

/-- The constructor, without a `keyFn`. -/
def new (limiters : List ℕ) (atomic : Bool) (degrade : Option Degrade) : Composer :=
  { limiters, atomicDefault := atomic, degrade, lastPath := none, requests := 0, rejected := 0
    legErrors := 0 }

/-- The path of a request, and whether the legs are asked. -/
def pathOf : Option Degrade → Shared → Option Path × Bool
  | none, _ => (none, true)
  | some _, .ok => (some .shared, true)
  | some _, .denied => (some .sharedDenied, false)
  | some .local, .throws => (some .local, true)
  | some .failClosed, .throws => (some .failClosed, false)

/-- A composition among the limiters there are. -/
structure World (τ : Type) where
  objects : Objects τ
  limit : Composer

/-- A call, of the composition or of a limiter. -/
inductive Call where
  | tryConsume (n : Number) (atomic : Option Bool) (shared : Shared)
  | leg (i : ℕ) (r : Request)

/-- A call, with what every limiter's clock shows at its begin and at its end. -/
structure Event where
  call : Call
  first : ℕ → ℚ
  again : ℕ → ℚ

/-- `_tryConsume`. -/
def consume (w : World τ) (n : Number) (atomic : Option Bool) (shared : Shared) (first again : ℕ → ℚ) :
    World τ × Except String Bool :=
  let (path, asked) := pathOf w.limit.degrade shared
  if asked then
    let (objects, errors, ok) :=
      consumeIn w.limit.limiters n (atomic.getD w.limit.atomicDefault) first again w.objects
    ({ objects, limit := { w.limit with lastPath := path, legErrors := w.limit.legErrors + errors } }, ok)
  else ({ w with limit := { w.limit with lastPath := path } }, .ok false)

def tryConsume (w : World τ) (n : Number) (atomic : Option Bool) (shared : Shared)
    (first again : ℕ → ℚ) : World τ × Except String Bool :=
  let (w, ok) := consume w n atomic shared first again
  let rejected := match ok with
    | .ok false => 1
    | _ => 0
  ({ w with limit := { w.limit with
      requests := w.limit.requests + 1, rejected := w.limit.rejected + rejected } }, ok)

/-- What a call answers: nothing, where it throws. -/
def step (w : World τ) (e : Event) : World τ × Option Answer :=
  match e.call with
  | .tryConsume n atomic shared =>
    let r := tryConsume w n atomic shared e.first e.again
    (r.1, (r.2.map .admits).toOption)
  | .leg i r =>
    let a := callLeg w.objects i r (e.first i)
    ({ w with objects := a.1 }, a.2.toOption)

/-! ## Legs that answer alike -/

section
variable {l l' : Throttle.Limiter} {w w' : SlidingWindow.Window} {g : Gcra.Limiter} {t now : ℚ}

/-- Two buckets that a refill makes the same, at any reading from `t` on. -/
structure Refills (t : ℚ) (l l' : Throttle.Limiter) : Prop where
  left : Throttle.Holds l
  right : Throttle.Holds l'
  left_le : l.lastRefill ≤ t
  right_le : l'.lastRefill ≤ t
  refill : ∀ now, t ≤ now → Throttle.refill l now = Throttle.refill l' now

theorem Refills.refl (h : Throttle.Holds l) (hle : l.lastRefill ≤ t) : Refills t l l :=
  ⟨h, h, hle, hle, fun _ _ => rfl⟩

section
variable (h : Refills t l l')
include h

theorem Refills.later (hle : t ≤ now) : Refills now l l' :=
  ⟨h.left, h.right, h.left_le.trans hle, h.right_le.trans hle, fun now' h' => h.refill now' (hle.trans h')⟩

theorem Refills.same : Throttle.Same l l' := by
  have hl := (Throttle.refill_spec h.left h.left_le).same
  have hl' := (Throttle.refill_spec h.right h.right_le).same
  rw [h.refill t le_rfl] at hl
  exact ⟨hl'.capacity.symm.trans hl.capacity, hl'.refillRate.symm.trans hl.refillRate⟩

theorem Refills.of_eq (hle : t ≤ now) :
    Refills now (Throttle.refill l now) (Throttle.refill l' now) := by
  have href := Throttle.refill_spec h.left (h.left_le.trans hle)
  rw [← h.refill now hle]
  exact Refills.refl href.holds href.lastRefill_le

theorem take_alike (hle : t ≤ now) (want : ℕ) :
    Throttle.take l want now = Throttle.take l' want now ∧
      Refills now (Throttle.take l want now).1 (Throttle.take l' want now).1 := by
  have heq : Throttle.take l want now = Throttle.take l' want now := by
    simp only [Throttle.take, h.refill now hle]
  have hkeeps := Throttle.does_keeps h.left (h.left_le.trans hle) (Throttle.take_does l want now)
  rw [← heq]
  exact ⟨rfl, Refills.refl hkeeps.2.1 hkeeps.2.2⟩

theorem release_alike (token : ℕ) :
    Refills t (Throttle.release l token) (Throttle.release l' token) := by
  have hlast : ∀ l : Throttle.Limiter, (Throttle.release l token).lastRefill = l.lastRefill := by
    intro l
    unfold Throttle.release
    split <;> rfl
  refine ⟨Throttle.holds_release h.left token, Throttle.holds_release h.right token, ?_, ?_, ?_⟩
  · exact (hlast l).trans_le h.left_le
  · exact (hlast l').trans_le h.right_le
  · intro now hle
    rw [Throttle.refill_release h.left (h.left_le.trans hle),
      Throttle.refill_release h.right (h.right_le.trans hle), h.refill now hle]

theorem reset_alike (count : Option Number) (now : ℚ) :
    Refills now (Throttle.reset l count now) (Throttle.reset l' count now) := by
  have hsame := h.same
  have heq : Throttle.reset l count now = Throttle.reset l' count now := by
    simp only [Throttle.reset, hsame.capacity, hsame.refillRate]
  have hcapacity : (0 : ℚ) ≤ l.capacity := by
    exact_mod_cast zero_le_one.trans h.left.capacity
  have htokens : (Throttle.reset l count now).tokens ≤ l.capacity := by
    unfold Throttle.reset
    dsimp only
    split
    · exact le_rfl
    · exact le_rfl
    · exact max_le hcapacity (min_le_left _ _)
    · exact hcapacity
    · exact hcapacity
  rw [← heq]
  exact Refills.refl ⟨h.left.capacity, h.left.refillRate, htokens, le_rfl, one_pos⟩ le_rfl

theorem callThrottle_alike (hle : t ≤ now) (r : Request) :
    (callThrottle l r now).2 = (callThrottle l' r now).2 ∧
      Refills now (callThrottle l r now).1 (callThrottle l' r now).1 := by
  cases r with
  | tryConsume n =>
    simp only [callThrottle, Throttle.tryConsume]
    cases assertCount n "PowerThrottle" "tryConsume" with
    | error e => exact ⟨rfl, h.later hle⟩
    | ok want =>
      cases want with
      | zero => exact ⟨rfl, h.later hle⟩
      | succ want =>
        obtain ⟨heq, halike⟩ := take_alike h hle (want + 1)
        exact ⟨by simp only [heq], halike⟩
  | reserve n =>
    simp only [callThrottle, Throttle.reserve]
    cases assertCount n "PowerThrottle" "reserve" with
    | error e => exact ⟨rfl, h.later hle⟩
    | ok want =>
      cases want with
      | zero => exact ⟨rfl, h.later hle⟩
      | succ want =>
        obtain ⟨heq, halike⟩ := take_alike h hle (want + 1)
        exact ⟨by simp only [heq], halike⟩
  | release token => exact ⟨rfl, release_alike (h.later hle) token⟩
  | rollback n => exact ⟨rfl, release_alike (h.later hle) n⟩
  | addTokens n =>
    simp only [callThrottle, Throttle.addTokens]
    cases assertCount n "PowerThrottle" "addTokens" with
    | error e => exact ⟨rfl, h.later hle⟩
    | ok add => exact ⟨rfl, release_alike (h.later hle) add⟩
  | available =>
    have halike := h.of_eq hle
    refine ⟨?_, halike⟩
    simp only [callThrottle, Throttle.available, h.refill now hle]
  | reset count => exact ⟨rfl, reset_alike h count now⟩
  | setRate _ | other _ => exact ⟨rfl, h.later hle⟩

end

/-- Two windows that a prune leaves the same times, at any reading from `t` on. -/
structure Prunes (t : ℚ) (w w' : SlidingWindow.Window) (xs xs' : List ℚ) : Prop where
  same : SlidingWindow.Same w w'
  left : SlidingWindow.Holds w xs
  right : SlidingWindow.Holds w' xs'
  left_le : ∀ x ∈ xs, x ≤ t
  right_le : ∀ x ∈ xs', x ≤ t
  kept : ∀ s, t - w.windowMs ≤ s → xs.filter (s < ·) = xs'.filter (s < ·)

variable {xs xs' : List ℚ}

theorem Prunes.of_eq (hsame : SlidingWindow.Same w w') (h : SlidingWindow.Holds w xs)
    (h' : SlidingWindow.Holds w' xs) (hle : ∀ x ∈ xs, x ≤ t) : Prunes t w w' xs xs :=
  ⟨hsame, h, h', hle, hle, fun _ _ => rfl⟩

theorem consumeTimes_le (capacity : ℚ) (hle : ∀ x ∈ xs, x ≤ now) (want : ℕ) :
    ∀ x ∈ (SlidingWindow.consumeTimes capacity xs now want).1, x ≤ now := by
  unfold SlidingWindow.consumeTimes
  split
  · split
    · exact hle
    · intro x hx
      rcases List.mem_append.mp hx with hx | hx
      · exact hle x hx
      · exact (List.eq_of_mem_replicate hx).le
  · exact hle

section
variable (h : Prunes t w w' xs xs') (hle : t ≤ now)
include h hle

theorem Prunes.pruned :
    xs.filter (now - w.windowMs < ·) = xs'.filter (now - w'.windowMs < ·) ∧
      ∀ x ∈ xs.filter (now - w.windowMs < ·), x ≤ now := by
  rw [h.same.windowMs]
  refine ⟨h.kept _ (by linarith), fun x hx => ?_⟩
  exact (h.left_le x (List.mem_filter.mp hx).1).trans hle

theorem Prunes.later : Prunes now w w' xs xs' where
  same := h.same
  left := h.left
  right := h.right
  left_le x hx := (h.left_le x hx).trans hle
  right_le x hx := (h.right_le x hx).trans hle
  kept s hs := h.kept s (by linarith)

theorem callWindow_alike (r : Request) :
    (callWindow w r now).2.toOption = (callWindow w' r now).2.toOption ∧
      ∃ xs xs', Prunes now (callWindow w r now).1 (callWindow w' r now).1 xs xs' := by
  have hnow := h.later hle
  obtain ⟨heq, htimes⟩ := h.pruned hle
  cases r with
  | tryConsume n =>
    cases hcount : assertCount n "PowerSlidingWindow" "tryConsume" with
    | error e =>
      simp only [callWindow, SlidingWindow.tryConsume, hcount]
      exact ⟨trivial, xs, xs', hnow⟩
    | ok want =>
      cases want with
      | zero =>
        simp only [callWindow, SlidingWindow.tryConsume, hcount]
        exact ⟨trivial, xs, xs', hnow⟩
      | succ want =>
        obtain ⟨hsame₁, hholds₁, hanswer₁⟩ := SlidingWindow.tryConsume_spec h.left hnow.left_le hcount
        obtain ⟨hsame₂, hholds₂, hanswer₂⟩ := SlidingWindow.tryConsume_spec h.right hnow.right_le hcount
        rw [← heq, h.same.capacity] at hholds₂ hanswer₂
        have hle' := consumeTimes_le w.capacity htimes (want + 1)
        refine ⟨?_, _, _, Prunes.of_eq (h.same.between hsame₁ hsame₂) hholds₁ hholds₂ hle'⟩
        simp only [callWindow, toOption_map, toOption_mapError, hanswer₁, hanswer₂]
  | available =>
    obtain ⟨hsame₁, hholds₁, hanswer₁⟩ := SlidingWindow.available_spec h.left now
    obtain ⟨hsame₂, hholds₂, hanswer₂⟩ := SlidingWindow.available_spec h.right now
    rw [← heq, h.same.capacity] at hanswer₂
    rw [← heq] at hholds₂
    refine ⟨?_, _, _, Prunes.of_eq (h.same.between hsame₁ hsame₂) hholds₁ hholds₂ htimes⟩
    simp only [callWindow, hanswer₁, hanswer₂]
  | reset _ =>
    exact ⟨rfl, [], [], ⟨⟨h.same.capacity, h.same.windowMs⟩, SlidingWindow.holds_reset h.left,
      SlidingWindow.holds_reset h.right, fun _ hx => absurd hx List.not_mem_nil,
      fun _ hx => absurd hx List.not_mem_nil, fun _ _ => rfl⟩⟩
  | _ => exact ⟨rfl, xs, xs', hnow⟩

end

structure Made (l : Gcra.Limiter) : Prop where
  holds : Gcra.Holds l
  per : 0 < l.per

theorem made_call (h : Made g) (r : Request) (now : ℚ) : Made (callGcra g r now).1 := by
  cases r with
  | tryConsume n =>
    refine ⟨(Gcra.tryConsume_spec h.holds n now).1.holds h.holds, ?_⟩
    exact (Gcra.tryConsume_per g n now).symm ▸ h.per
  | reset _ => exact ⟨⟨h.holds.emission, h.holds.burst, h.holds.tolerance⟩, h.per⟩
  | setRate rate =>
    obtain ⟨hholds, hper⟩ := Gcra.setRate_keeps h.holds h.per rate
    exact ⟨hholds, hper.symm ▸ h.per⟩
  | other c =>
    refine ⟨(Gcra.call_spec h.holds c).1.holds h.holds, ?_⟩
    exact (Gcra.call_per g c).symm ▸ h.per
  | _ => exact h

end

/-- Two states of a leg that no call tells apart, at any reading from `t` on. -/
inductive Leg.Alike (t : ℚ) : Leg τ → Leg τ → Prop where
  | gcra {l} (h : Made l) : Alike t (.gcra l) (.gcra l)
  | throttle {l l'} (h : Refills t l l') : Alike t (.throttle l) (.throttle l')
  | window {w w' xs xs'} (h : Prunes t w w' xs xs') : Alike t (.window w) (.window w')
  | thirdParty (like : RateLimiterLike τ) (state : τ) : Alike t (.thirdParty like state) (.thirdParty like state)

section
variable {l l' : Leg τ} {t now : ℚ}

theorem Leg.Alike.later (h : l.Alike t l') (hle : t ≤ now) : l.Alike now l' := by
  cases h with
  | gcra h => exact .gcra h
  | throttle h => exact .throttle (h.later hle)
  | window h => exact .window (h.later hle)
  | thirdParty like state => exact .thirdParty like state

theorem Refills.symm {l l' : Throttle.Limiter} (h : Refills t l l') : Refills t l' l :=
  ⟨h.right, h.left, h.right_le, h.left_le, fun now hle => (h.refill now hle).symm⟩

theorem Prunes.symm {w w' : SlidingWindow.Window} {xs xs' : List ℚ} (h : Prunes t w w' xs xs') :
    Prunes t w' w xs' xs where
  same := ⟨h.same.capacity.symm, h.same.windowMs.symm⟩
  left := h.right
  right := h.left
  left_le := h.right_le
  right_le := h.left_le
  kept s hs := (h.kept s (h.same.windowMs ▸ hs)).symm

theorem Leg.Alike.symm (h : l.Alike t l') : l'.Alike t l := by
  cases h with
  | gcra h => exact .gcra h
  | throttle h => exact .throttle h.symm
  | window h => exact .window h.symm
  | thirdParty like state => exact .thirdParty like state

theorem Leg.Alike.has (h : l.Alike t l') : l.has = l'.has := by
  cases h <;> rfl

theorem Leg.Alike.shipped (h : l.Alike t l') : l.shipped = l'.shipped := by
  cases h <;> rfl

theorem Leg.call_has (l : Leg τ) (r : Request) (now : ℚ) : (l.call r now).1.has = l.has := by
  cases l with
  | thirdParty like state =>
    unfold Leg.call
    dsimp only
    split <;> rfl
  | _ => rfl

theorem Leg.call_shipped (l : Leg τ) (r : Request) (now : ℚ) : (l.call r now).1.shipped = l.shipped := by
  cases l with
  | thirdParty like state =>
    unfold Leg.call
    dsimp only
    split <;> rfl
  | _ => rfl

/-- What a call answers does not tell two such states apart, nor does it part them. -/
theorem Leg.call_alike (h : l.Alike t l') (hle : t ≤ now) (r : Request) :
    (l.call r now).2.toOption = (l'.call r now).2.toOption ∧ (l.call r now).1.Alike now (l'.call r now).1 := by
  cases h with
  | gcra h => exact ⟨rfl, .gcra (made_call h r now)⟩
  | throttle h =>
    obtain ⟨hanswer, halike⟩ := callThrottle_alike h hle r
    exact ⟨congrArg Except.toOption hanswer, .throttle halike⟩
  | window h =>
    obtain ⟨hanswer, xs, xs', halike⟩ := callWindow_alike h hle r
    exact ⟨hanswer, .window halike⟩
  | thirdParty like state =>
    refine ⟨rfl, ?_⟩
    unfold Leg.call
    dsimp only
    split
    · exact .thirdParty like _
    · exact .thirdParty like state

/-- A shipped leg is not told apart from itself after its `available()`. -/
theorem Leg.available_alike (h : l.Alike t l) (hshipped : l.shipped = true) :
    l.Alike t (l.call .available t).1 ∧ ∃ q, (l.call .available t).2 = .ok (.room q) := by
  cases h with
  | gcra h => exact ⟨.gcra h, _, rfl⟩
  | @throttle l _ h =>
    have href := Throttle.refill_spec h.left h.left_le
    refine ⟨.throttle ⟨h.left, href.holds, h.left_le, href.lastRefill_le, fun now hle => ?_⟩, _, rfl⟩
    exact (Throttle.refill_refill h.left h.left_le hle).symm
  | @window w _ xs _ h =>
    obtain ⟨hsame, hholds, hanswer⟩ := SlidingWindow.available_spec h.left t
    have hle : ∀ x ∈ xs.filter (t - w.windowMs < ·), x ≤ t := fun x hx =>
      h.left_le x (List.mem_filter.mp hx).1
    constructor
    · refine .window ⟨hsame, h.left, hholds, h.left_le, hle, fun s hs => ?_⟩
      rw [List.filter_filter]
      refine List.filter_congr fun x _ => ?_
      symm
      simp only [Bool.and_eq_left_iff_imp, decide_eq_true_eq]
      exact fun hlt => hs.trans_lt hlt
    · refine ⟨max 0 (w.capacity - (xs.filter (t - w.windowMs < ·)).length), ?_⟩
      simp only [Leg.call, callWindow, hanswer]
      rfl
  | thirdParty like state => cases hshipped

theorem Leg.affords (h : l.Alike t l) (hshipped : l.shipped = true) {want : ℕ} {q : ℚ}
    (hroom : (l.call .available t).2 = .ok (.room q)) (hq : (want + 1 : ℕ) ≤ q) (hle : t ≤ now) :
    ((l.call .available t).1.call (.tryConsume (.finite (want + 1 : ℕ))) now).2 ≠ .ok (.admits false) := by
  cases h with
  | @gcra l h =>
    obtain rfl : (Gcra.available l t : ℚ) = q := by
      injection hroom with hroom
      injection hroom
    have hcovers : ((want + 1 : ℕ) : ℤ) ≤ Gcra.available l now :=
      (show ((want + 1 : ℕ) : ℤ) ≤ Gcra.available l t by exact_mod_cast hq).trans
        (Gcra.available_mono h.holds hle)
    have htrue := Gcra.tryConsume_available (assertCount_nat (want + 1) _ _) hcovers
    intro hfalse
    simp only [Leg.call, callGcra, Prod.map, htrue] at hfalse
    cases hfalse
  | @throttle l _ h =>
    obtain rfl : (Throttle.refill l t).tokens = q := by
      injection hroom with hroom
      injection hroom
    have href := Throttle.refill_spec h.left h.left_le
    have htrue := Throttle.tryConsume_held href.holds (href.lastRefill_le.trans hle)
      (assertCount_nat (want + 1) _ _) hq
    intro hfalse
    simp only [Leg.call, callThrottle, Prod.map, Throttle.available, htrue] at hfalse
    cases hfalse
  | @window w _ xs _ h =>
    obtain ⟨hsame, hholds, hanswer⟩ := SlidingWindow.available_spec h.left t
    have htimes : ∀ x ∈ xs.filter (t - w.windowMs < ·), x ≤ now := fun x hx =>
      (h.left_le x (List.mem_filter.mp hx).1).trans hle
    obtain rfl : max 0 (w.capacity - (xs.filter (t - w.windowMs < ·)).length) = q := by
      simp only [Leg.call, callWindow, Prod.map, hanswer] at hroom
      injection hroom with hroom
      injection hroom
    have hpos : (0 : ℚ) < (want + 1 : ℕ) := by
      exact_mod_cast Nat.succ_pos want
    have hroom' : ((want + 1 : ℕ) : ℚ) ≤ w.capacity - (xs.filter (t - w.windowMs < ·)).length := by
      rcases le_max_iff.mp hq with h0 | h0
      · exact absurd h0 (not_le.mpr hpos)
      · exact h0
    have hne := SlidingWindow.tryConsume_room hholds htimes (assertCount_nat (want + 1) _ _)
      (by rw [hsame.capacity]; linarith)
    intro hfalse
    simp only [Leg.call, callWindow, Prod.map, id] at hfalse
    generalize (SlidingWindow.tryConsume _ _ now).2 = answer at hfalse hne
    cases answer with
    | error e => cases hfalse
    | ok ok =>
      cases hfalse
      exact hne rfl
  | thirdParty like state => cases hshipped

end

/-! ## A request to all legs -/

section
variable {f f' : Objects τ} {t t' : ℕ → ℚ} {want : ℕ}

def Alike (t : ℕ → ℚ) (f f' : Objects τ) : Prop := ∀ i, (f i).Alike (t i) (f' i)

theorem Alike.later (h : Alike t f f') (hle : t ≤ t') : Alike t' f f' := fun i => (h i).later (hle i)

theorem callLeg_alike (h : Alike t f f') (i : ℕ) (r : Request) :
    (callLeg f i r (t i)).2.toOption = (callLeg f' i r (t i)).2.toOption ∧
      Alike t (callLeg f i r (t i)).1 (callLeg f' i r (t i)).1 := by
  obtain ⟨hanswer, halike⟩ := Leg.call_alike (h i) le_rfl r
  refine ⟨hanswer, fun j => ?_⟩
  by_cases hj : j = i
  · subst hj
    simpa only [callLeg, update_self] using halike
  · simpa only [callLeg, update_of_ne hj] using h j

structure Respected (t : ℕ → ℚ) (R : Objects τ → Objects τ → Prop) : Prop where
  has : ∀ {f f'}, R f f' → ∀ i, (f i).has = (f' i).has
  call : ∀ {f f'}, R f f' → ∀ i r, (callLeg f i r (t i)).2.toOption = (callLeg f' i r (t i)).2.toOption ∧
    R (callLeg f i r (t i)).1 (callLeg f' i r (t i)).1

theorem respected_alike (t : ℕ → ℚ) : Respected t (Alike (τ := τ) t) :=
  ⟨fun h i => (h i).has, fun h i r => callLeg_alike h i r⟩

theorem supportsUndo_congr (hhas : ∀ i, (f i).has = (f' i).has) (legs : List ℕ) :
    (legs.all fun i => supportsUndo (f i)) = legs.all fun i => supportsUndo (f' i) := by
  simp only [supportsUndo, hhas]

section
variable {R R' : Objects τ → Objects τ → Prop} (hR : Respected t R) (h : R f f')
include hR h

/-- What a call of a leg may be followed by, when it does not tell two worlds apart. -/
theorem callLeg_cases (i : ℕ) (r : Request) : ∃ g g', R g g' ∧
    ((∃ e e', callLeg f i r (t i) = (g, .error e) ∧ callLeg f' i r (t i) = (g', .error e')) ∨
      ∃ a, callLeg f i r (t i) = (g, .ok a) ∧ callLeg f' i r (t i) = (g', .ok a)) := by
  obtain ⟨hanswer, hstay⟩ := hR.call h i r
  refine ⟨_, _, hstay, ?_⟩
  rcases toOption_eq_toOption hanswer with ⟨e, e', he, he'⟩ | ⟨a, ha, ha'⟩
  · exact Or.inl ⟨e, e', Prod.ext rfl he, Prod.ext rfl he'⟩
  · exact Or.inr ⟨a, Prod.ext rfl ha, Prod.ext rfl ha'⟩

theorem preflight_alike (want : ℕ) (legs : List ℕ) (allHaveAvailable : Bool) :
    (preflight want t legs allHaveAvailable f).2 = (preflight want t legs allHaveAvailable f').2 ∧
      R (preflight want t legs allHaveAvailable f).1 (preflight want t legs allHaveAvailable f').1 := by
  induction legs generalizing f f' allHaveAvailable with
  | nil => exact ⟨rfl, h⟩
  | cons i legs ih =>
    rw [preflight, preflight, hR.has h i]
    split
    · obtain ⟨g, g', hg, ⟨e, e', hf, hf'⟩ | ⟨a, hf, hf'⟩⟩ := callLeg_cases hR h i .available
      · rw [hf, hf']
        exact ⟨rfl, hg⟩
      · rw [hf, hf']
        dsimp only
        split
        · exact ⟨rfl, hg⟩
        · exact ih hg allHaveAvailable
    · exact ih h false

theorem commit_alike (legs : List ℕ) :
    (commit want t legs f).2.toOption = (commit want t legs f').2.toOption ∧
      R (commit want t legs f).1 (commit want t legs f').1 := by
  induction legs generalizing f f' with
  | nil => exact ⟨rfl, h⟩
  | cons i legs ih =>
    rw [commit, commit]
    obtain ⟨g, g', hg, ⟨e, e', hf, hf'⟩ | ⟨a, hf, hf'⟩⟩ := callLeg_cases hR h i (.tryConsume (.finite want))
    · rw [hf, hf']
      exact ⟨rfl, hg⟩
    · rw [hf, hf']
      dsimp only
      split
      · exact ih hg
      · exact ⟨rfl, hg⟩

theorem undoCount_alike (i : ℕ) : R (undoCount want t f i) (undoCount want t f' i) := by
  unfold undoCount
  rw [hR.has h i]
  split
  · exact (hR.call h i _).2
  split
  · exact (hR.call h i _).2
  split
  · exact (hR.call h i _).2
  · exact h

theorem undoCommit_alike (entry : ℕ × Option ℕ) :
    R (undoCommit want t f entry) (undoCommit want t f' entry) := by
  obtain ⟨i, token⟩ := entry
  cases token with
  | none => exact undoCount_alike hR h i
  | some token =>
    simp only [undoCommit, hR.has h i]
    split
    · exact (hR.call h i _).2
    · exact undoCount_alike hR h i

theorem undo_alike (committed : List (ℕ × Option ℕ)) :
    R (committed.foldl (undoCommit want t) f) (committed.foldl (undoCommit want t) f') := by
  induction committed generalizing f f' with
  | nil => exact h
  | cons entry committed ih => exact ih (undoCommit_alike hR h entry)

theorem commitOrUndo_alike (want : ℕ) (legs : List ℕ) (committed : List (ℕ × Option ℕ)) :
    (commitOrUndo want t legs committed f).2 = (commitOrUndo want t legs committed f').2 ∧
      R (commitOrUndo want t legs committed f).1 (commitOrUndo want t legs committed f').1 := by
  induction legs generalizing f f' committed with
  | nil => exact ⟨rfl, h⟩
  | cons i legs ih =>
    rw [commitOrUndo, commitOrUndo, hR.has h i]
    split
    · obtain ⟨g, g', hg, ⟨e, e', hf, hf'⟩ | ⟨a, hf, hf'⟩⟩ := callLeg_cases hR h i (.reserve (.finite want))
      · rw [hf, hf']
        exact ⟨rfl, undo_alike hR hg committed⟩
      · rw [hf, hf']
        rcases a with _ | (_ | token) | _ | _ | _
        all_goals try exact ⟨rfl, undo_alike hR hg committed⟩
        exact ih hg _
    · obtain ⟨g, g', hg, ⟨e, e', hf, hf'⟩ | ⟨a, hf, hf'⟩⟩ :=
        callLeg_cases hR h i (.tryConsume (.finite want))
      · rw [hf, hf']
        exact ⟨rfl, undo_alike hR hg committed⟩
      · rw [hf, hf']
        rcases a with (_ | _) | _ | _ | _ | _
        all_goals try exact ⟨rfl, undo_alike hR hg committed⟩
        exact ih hg _

theorem consumeIn_alike (hR' : Respected t' R') (hlater : ∀ {f f'}, R f f' → R' f f') (legs : List ℕ)
    (n : Number) (atomic : Bool) :
    (consumeIn legs n atomic t t' f).2.2.toOption = (consumeIn legs n atomic t t' f').2.2.toOption ∧
      R' (consumeIn legs n atomic t t' f).1 (consumeIn legs n atomic t t' f').1 := by
  have hhas := hR.has h
  unfold consumeIn
  split
  · exact ⟨rfl, hlater h⟩
  · exact ⟨rfl, hlater h⟩
  next want _ =>
  simp only [hhas]
  split
  swap
  · exact ⟨rfl, hlater h⟩
  obtain ⟨hend, hg⟩ := preflight_alike hR h (want + 1) legs true
  generalize preflight (want + 1) t legs true f = r at hend hg ⊢
  generalize preflight (want + 1) t legs true f' = r' at hend hg ⊢
  obtain ⟨g, p⟩ := r
  obtain ⟨g', p'⟩ := r'
  obtain rfl : p = p' := hend
  replace hg := hlater hg
  cases p with
  | refused | failed => exact ⟨rfl, hg⟩
  | passed allHaveAvailable =>
    simp only [supportsUndo_congr (hR'.has hg)]
    split
    · exact commit_alike hR' hg legs
    split
    · obtain ⟨hok, halike⟩ := commitOrUndo_alike hR' hg (want + 1) legs []
      exact ⟨congrArg some hok, halike⟩
    · exact ⟨rfl, hg⟩

end

theorem consumeIn_keeps {P : Objects τ → Prop} (hP : ∀ f i r now, P f → P (callLeg f i r now).1) (legs : List ℕ)
    (n : Number) (atomic : Bool) (first again : ℕ → ℚ) (h : P f) : P (consumeIn legs n atomic first again f).1 := by
  have hself (t : ℕ → ℚ) : Respected t fun f f' : Objects τ => f = f' ∧ P f :=
    ⟨fun h i => h.1 ▸ rfl, fun h i r => ⟨h.1 ▸ rfl, h.1 ▸ rfl, hP _ i r _ h.2⟩⟩
  exact (consumeIn_alike (hself first) ⟨rfl, h⟩ (hself again) id legs n atomic).2.2

end

/-! ## Calls of the composition -/

section
variable {w w' : World τ} {t : ℕ → ℚ}

structure World.Alike (t : ℕ → ℚ) (w w' : World τ) : Prop where
  objects : RateLimit.Alike t w.objects w'.objects
  limiters : w.limit.limiters = w'.limit.limiters
  atomicDefault : w.limit.atomicDefault = w'.limit.atomicDefault
  degrade : w.limit.degrade = w'.limit.degrade

theorem World.Alike.later (h : w.Alike t w') {t' : ℕ → ℚ} (hle : t ≤ t') : w.Alike t' w' :=
  ⟨h.objects.later hle, h.limiters, h.atomicDefault, h.degrade⟩

theorem step_alike (e : Event) (h : w.Alike e.first w') (hle : e.first ≤ e.again) :
    (step w e).2 = (step w' e).2 ∧ (step w e).1.Alike e.again (step w' e).1 := by
  unfold step
  split
  · next n atomic shared _ =>
    simp only [tryConsume, consume, h.degrade, h.limiters, h.atomicDefault]
    split
    · obtain ⟨hanswer, halike⟩ := consumeIn_alike (respected_alike _) h.objects (respected_alike _)
        (fun h => h.later hle) w'.limit.limiters n (atomic.getD w'.limit.atomicDefault)
      refine ⟨?_, halike, rfl, rfl, rfl⟩
      simp only [toOption_map, hanswer]
    · exact ⟨rfl, h.objects.later hle, rfl, rfl, rfl⟩
  · next i r _ =>
    obtain ⟨hanswer, halike⟩ := callLeg_alike h.objects i r
    exact ⟨hanswer, halike.later hle, h.limiters, h.atomicDefault, h.degrade⟩

end

/-! ## What every call keeps -/

/-- A limiter has the methods it had, and a composition the legs. -/
structure Kept (w w' : World τ) : Prop where
  has : ∀ i, (w'.objects i).has = (w.objects i).has
  shipped : ∀ i, (w'.objects i).shipped = (w.objects i).shipped
  limiters : w'.limit.limiters = w.limit.limiters
  atomicDefault : w'.limit.atomicDefault = w.limit.atomicDefault

/-- The world after a call. -/
def after (w : World τ) (e : Event) : World τ := (step w e).1

section
variable {w w' : World τ}

theorem callLeg_kept (w : World τ) (f : Objects τ) (i : ℕ) (r : Request) (now : ℚ)
    (h : ∀ j, (f j).has = (w.objects j).has ∧ (f j).shipped = (w.objects j).shipped) (j : ℕ) :
    ((callLeg f i r now).1 j).has = (w.objects j).has ∧
      ((callLeg f i r now).1 j).shipped = (w.objects j).shipped := by
  by_cases hj : j = i
  · subst hj
    simpa only [callLeg, update_self, Leg.call_has, Leg.call_shipped] using h j
  · simpa only [callLeg, update_of_ne hj] using h j

theorem after_kept (e : Event) (h : Kept w w') : Kept w (after w' e) := by
  have hkinds := fun i => And.intro (h.has i) (h.shipped i)
  unfold after step
  split
  · next n atomic shared _ =>
    simp only [tryConsume, consume]
    split
    · have hkept := consumeIn_keeps (callLeg_kept w) w'.limit.limiters n
        (atomic.getD w'.limit.atomicDefault) e.first e.again hkinds
      exact ⟨fun i => (hkept i).1, fun i => (hkept i).2, h.limiters, h.atomicDefault⟩
    · exact { h with }
  · next i r _ =>
    have hkept := callLeg_kept w w'.objects i r (e.first i) hkinds
    exact ⟨fun j => (hkept j).1, fun j => (hkept j).2, h.limiters, h.atomicDefault⟩

end

/-! ## A request that is refused -/

/-- A shipped leg, or a third-party one with no more than `tryConsume` and `reset`. -/
def Leg.Plain (l : Leg τ) : Prop :=
  l.shipped = true ∨ ∀ m, l.has m = true → m = .tryConsume ∨ m = .reset

section
variable {f g : Objects τ} {t t' : ℕ → ℚ} {want : ℕ} {legs : List ℕ}

/-- What a third-party leg has no method for. -/
theorem Leg.Plain.has_eq_false {l : Leg τ} (h : l.Plain) (hshipped : l.shipped = false) {m : Method}
    (h₁ : m ≠ .tryConsume) (h₂ : m ≠ .reset) : l.has m = false := by
  rcases h with h | h
  · rw [h] at hshipped
    cases hshipped
  · by_contra hhas
    rcases h m (Bool.eq_true_of_not_eq_false hhas) with hm | hm
    · exact h₁ hm
    · exact h₂ hm

theorem Leg.has_available {l : Leg τ} (h : l.shipped = true) : l.has .available = true := by
  cases l with
  | thirdParty like state => cases h
  | _ => rfl

theorem Leg.Plain.has_available {l : Leg τ} (h : l.Plain) : l.has .available = l.shipped := by
  cases hshipped : l.shipped with
  | true => exact Leg.has_available hshipped
  | false => exact h.has_eq_false hshipped (by decide) (by decide)

theorem Leg.Plain.supportsUndo {l : Leg τ} (h : l.Plain) (hshipped : l.shipped = false) :
    RateLimit.supportsUndo l = false := by
  have hno : ∀ m, m ≠ .tryConsume → m ≠ .reset → l.has m = false := fun m => h.has_eq_false hshipped
  simp [RateLimit.supportsUndo, hno]

/-- What a pre-flight does over distinct legs: each is asked once, or not at all. -/
structure Asked (want : ℕ) (t : ℕ → ℚ) (legs : List ℕ) (allHaveAvailable : Bool) (f : Objects τ)
    (r : Objects τ × Preflight) : Prop where
  others : ∀ i, i ∉ legs → r.1 i = f i
  leg : ∀ i, r.1 i = f i ∨
    (f i).has .available = true ∧ r.1 i = ((f i).call .available (t i)).1
  failed : r.2 = .failed → ∃ i ∈ legs, (f i).has .available = true ∧
    ∃ e, ((f i).call .available (t i)).2 = .error e
  passed : ∀ all, r.2 = .passed all → (all = (allHaveAvailable && legs.all fun i => (f i).has .available)) ∧
    ∀ i ∈ legs, (f i).has .available = true → r.1 i = ((f i).call .available (t i)).1 ∧
      ∃ a, ((f i).call .available (t i)).2 = .ok a ∧ a.below want = false

theorem preflight_asked (want : ℕ) (t : ℕ → ℚ) (hdistinct : legs.Nodup) (allHaveAvailable : Bool) (f : Objects τ) :
    Asked want t legs allHaveAvailable f (preflight want t legs allHaveAvailable f) := by
  induction legs generalizing f allHaveAvailable with
  | nil =>
    refine ⟨fun _ _ => rfl, fun _ => Or.inl rfl, fun h => (nomatch h), fun all h => ⟨?_, ?_⟩⟩
    · injection h with h
      simp [h]
    · exact fun i hi => absurd hi List.not_mem_nil
  | cons j legs ih =>
    obtain ⟨hj, hdistinct⟩ := List.nodup_cons.mp hdistinct
    rw [preflight]
    split
    swap
    · -- a leg without `available()` is passed over
      next hhas =>
      have hrest := ih hdistinct false f
      refine ⟨fun i hi => hrest.others i fun h => hi (List.mem_cons_of_mem _ h), hrest.leg,
        fun h => ?_, fun all h => ⟨?_, fun i hi hi' => ?_⟩⟩
      · obtain ⟨i, hi, he⟩ := hrest.failed h
        exact ⟨i, List.mem_cons_of_mem _ hi, he⟩
      · rw [(hrest.passed all h).1, List.all_cons, Bool.eq_false_of_not_eq_true hhas]
        simp
      · rcases List.mem_cons.mp hi with rfl | hi
        · exact absurd hi' hhas
        · exact (hrest.passed all h).2 i hi hi'
    next hhas =>
    have hself : update f j ((f j).call .available (t j)).1 j = ((f j).call .available (t j)).1 :=
      update_self ..
    have hother : ∀ i, i ≠ j → update f j ((f j).call .available (t j)).1 i = f i :=
      fun i hi => update_of_ne hi ..
    -- the legs when this one has been asked
    have hothers : ∀ i, i ∉ j :: legs → update f j ((f j).call .available (t j)).1 i = f i :=
      fun i hi => hother i fun h => hi (h ▸ List.mem_cons_self)
    have hleg : ∀ i, update f j ((f j).call .available (t j)).1 i = f i ∨
        (f i).has .available = true ∧
          update f j ((f j).call .available (t j)).1 i = ((f i).call .available (t i)).1 := by
      intro i
      by_cases hi : i = j
      · subst hi
        exact Or.inr ⟨hhas, hself⟩
      · exact Or.inl (hother i hi)
    have hkept : ∀ i, (update f j ((f j).call .available (t j)).1 i).has = (f i).has := by
      intro i
      rcases hleg i with h | ⟨-, h⟩
      · rw [h]
      · rw [h, Leg.call_has]
    cases hanswer : ((f j).call .available (t j)).2 with
    | error e =>
      simp only [callLeg, hanswer]
      exact ⟨hothers, hleg, fun _ => ⟨j, List.mem_cons_self, hhas, e, hanswer⟩, fun all h => (nomatch h)⟩
    | ok a =>
      simp only [callLeg, hanswer]
      split
      · exact ⟨hothers, hleg, fun h => (nomatch h), fun all h => (nomatch h)⟩
      next hbelow =>
      have hrest := ih hdistinct allHaveAvailable (update f j ((f j).call .available (t j)).1)
      generalize update f j ((f j).call .available (t j)).1 = g at *
      have hne : ∀ i ∈ legs, i ≠ j := fun i hi h => hj (h ▸ hi)
      refine ⟨fun i hi => ?_, fun i => ?_, fun h => ?_, fun all h => ⟨?_, fun i hi hi' => ?_⟩⟩
      · rw [hrest.others i fun h => hi (List.mem_cons_of_mem _ h), hothers i hi]
      · by_cases hi : i = j
        · subst hi
          rw [hrest.others i hj]
          exact hleg i
        · have hasked := hrest.leg i
          rwa [hother i hi] at hasked
      · obtain ⟨i, hi, he⟩ := hrest.failed h
        rw [hother i (hne i hi)] at he
        exact ⟨i, List.mem_cons_of_mem _ hi, he⟩
      · rw [(hrest.passed all h).1, List.all_cons, hhas, Bool.true_and]
        simp only [hkept]
      · rcases List.mem_cons.mp hi with rfl | hi
        · rw [hrest.others i hj, hself]
          exact ⟨rfl, a, hanswer, Bool.eq_false_of_not_eq_true hbelow⟩
        · have hasked := (hrest.passed all h).2 i hi
          rw [hother i (hne i hi)] at hasked
          exact hasked hi'

theorem preflight_plain (h : Alike t f f) (hplain : ∀ i ∈ legs, (f i).Plain)
    {allHaveAvailable : Bool} {r : Objects τ × Preflight}
    (hr : Asked want t legs allHaveAvailable f r) : Alike t f r.1 ∧ r.2 ≠ .failed := by
  have hshipped : ∀ i ∈ legs, (f i).has .available = true → (f i).shipped = true := by
    intro i hi hhas
    rwa [← (hplain i hi).has_available]
  constructor
  · intro i
    by_cases hi : i ∈ legs
    · rcases hr.leg i with heq | ⟨hhas, heq⟩
      · rw [heq]
        exact h i
      · rw [heq]
        exact (Leg.available_alike (h i) (hshipped i hi hhas)).1
    · rw [hr.others i hi]
      exact h i
  · intro hfailed
    obtain ⟨i, hi, hhas, e, he⟩ := hr.failed hfailed
    obtain ⟨q, hq⟩ := (Leg.available_alike (h i) (hshipped i hi hhas)).2
    rw [hq] at he
    cases he

/-- A leg that the pre-flight has asked does not refuse at the commit. -/
theorem preflight_affords (h : Alike t f f) (hle : t ≤ t') (hplain : ∀ i ∈ legs, (f i).Plain)
    {allHaveAvailable all : Bool} {r : Objects τ × Preflight}
    (hr : Asked (want + 1) t legs allHaveAvailable f r) (hpassed : r.2 = .passed all) :
    ∀ i ∈ legs, (r.1 i).shipped = true →
      ((r.1 i).call (.tryConsume (.finite (want + 1 : ℕ))) (t' i)).2 ≠ .ok (.admits false) := by
  intro i hi hshipped
  have hkind : (f i).shipped = true := by
    rcases hr.leg i with heq | ⟨-, heq⟩
    · rwa [heq] at hshipped
    · rwa [heq, Leg.call_shipped] at hshipped
  have hhas : (f i).has .available = true := by rwa [(hplain i hi).has_available]
  obtain ⟨heq, a, ha, hbelow⟩ := (hr.passed all hpassed).2 i hi hhas
  obtain ⟨q, hq⟩ := (Leg.available_alike (h i) hkind).2
  obtain rfl : .room q = a := by
    rw [hq] at ha
    exact Except.ok.inj ha
  rw [heq]
  refine Leg.affords (h i) hkind hq ?_ (hle i)
  simpa [Answer.below] using hbelow

/-- What a shipped leg answers to a count. -/
theorem Leg.tryConsume_answer {l : Leg τ} (h : l.shipped = true) {n : Number} {now : ℚ} {a : Answer}
    (ha : (l.call (.tryConsume n) now).2 = .ok a) : ∃ ok, a = .admits ok := by
  have hmap : ∀ {x : Except String Bool}, x.map Answer.admits = .ok a → ∃ ok, a = .admits ok := by
    intro x hx
    cases x with
    | error e => cases hx
    | ok ok => exact ⟨ok, (Except.ok.inj hx).symm⟩
  cases l with
  | thirdParty like state => cases h
  | _ => exact hmap ha

end

/-! ## The legs that are charged -/

/-- A count that a leg is asked for directly. -/
def direct (want : ℕ) (now : ℕ → ℚ) (i : ℕ) : Event := ⟨.leg i (.tryConsume (.finite want)), now, now⟩

/-- The answer counts as true. -/
def admitted (answer : Option Answer) : Bool := answer.any Answer.truthy

section
variable {f : Objects τ} {w : World τ} {t : ℕ → ℚ} {want : ℕ} {legs : List ℕ}

/-- A commit that is refused has called the legs up to the one that refuses, and no shipped leg
that can afford the count is that one. -/
theorem commit_refused (h : Alike t f w.objects) (hdistinct : legs.Nodup)
    (hafford : ∀ i ∈ legs, (f i).shipped = true →
      ((f i).call (.tryConsume (.finite want)) (t i)).2 ≠ .ok (.admits false))
    (hfalse : (commit want t legs f).2 = .ok false) :
    ∃ charged i rest, legs = charged ++ i :: rest ∧ (f i).shipped = false ∧
      (∀ answer ∈ answers step w (charged.map (direct want t)), admitted answer = true) ∧
      admitted (step (run after w (charged.map (direct want t))) (direct want t i)).2 = false ∧
      Alike t (commit want t legs f).1 (run after w ((charged ++ [i]).map (direct want t))).objects := by
  induction legs generalizing f w with
  | nil => cases hfalse
  | cons i legs ih =>
    obtain ⟨hi, hdistinct⟩ := List.nodup_cons.mp hdistinct
    obtain ⟨hanswer, halike⟩ := callLeg_alike h i (.tryConsume (.finite want))
    have hcalled : (step w (direct want t i)).2 = (callLeg f i (.tryConsume (.finite want)) (t i)).2.toOption :=
      hanswer.symm
    have hcharged : Alike t (callLeg f i (.tryConsume (.finite want)) (t i)).1
        (after w (direct want t i)).objects := halike
    have hother : ∀ j ∈ legs, (callLeg f i (.tryConsume (.finite want)) (t i)).1 j = f j := by
      intro j hj
      have hne : j ≠ i := fun h => hi (h ▸ hj)
      exact update_of_ne hne ..
    have hsplit : callLeg f i (.tryConsume (.finite want)) (t i) =
        ((callLeg f i (.tryConsume (.finite want)) (t i)).1,
          ((f i).call (.tryConsume (.finite want)) (t i)).2) := rfl
    rw [commit, hsplit] at hfalse ⊢
    generalize (callLeg f i (.tryConsume (.finite want)) (t i)).1 = g at *
    cases ha : ((f i).call (.tryConsume (.finite want)) (t i)).2 with
    | error e =>
      rw [ha] at hfalse
      cases hfalse
    | ok a =>
      rw [hsplit, ha] at hcalled
      rw [ha] at hfalse
      dsimp only at hfalse ⊢
      cases htruthy : a.truthy with
      | true =>
        -- the leg is charged, and the rest goes on
        rw [if_pos htruthy] at hfalse
        obtain ⟨charged, j, rest, hlegs, hj, hcalls, hlast, hend⟩ := ih hcharged hdistinct
          (fun j hj => by rw [hother j hj]; exact hafford j (List.mem_cons_of_mem _ hj)) hfalse
        have hmem : j ∈ legs := by
          rw [hlegs]
          simp
        refine ⟨i :: charged, j, rest, by rw [hlegs]; rfl, by rwa [hother j hmem] at hj, ?_, hlast, ?_⟩
        · intro answer hin
          rcases List.mem_cons.mp hin with rfl | hin
          · rw [hcalled]
            exact htruthy
          · exact hcalls answer hin
        · rw [if_pos rfl]
          exact hend
      | false =>
        refine ⟨[], i, legs, rfl, ?_, fun _ hin => absurd hin List.not_mem_nil, ?_, ?_⟩
        · -- a shipped leg would have answered that it does not admit
          by_contra hshipped
          obtain ⟨ok, rfl⟩ := Leg.tryConsume_answer (Bool.eq_true_of_not_eq_false hshipped) ha
          obtain rfl : ok = false := htruthy
          exact hafford i List.mem_cons_self (Bool.eq_true_of_not_eq_false hshipped) ha
        · exact (congrArg admitted hcalled).trans htruthy
        · rw [if_neg (by simp)]
          exact hcharged

/-- The legs before a third-party one admit a count that is asked of them directly, and that
one does not. -/
structure RefusedAt (w : World τ) (want : ℕ) (now : ℕ → ℚ) (charged : List ℕ) (i : ℕ) : Prop where
  thirdParty : (w.objects i).shipped = false
  admits : ∀ answer ∈ answers step w (charged.map (direct want now)), admitted answer = true
  refuses : admitted (step (run after w (charged.map (direct want now))) (direct want now i)).2 = false

theorem consumeIn_refused {t' : ℕ → ℚ} (h : Alike t w.objects w.objects) (hle : t ≤ t')
    (hplain : ∀ i ∈ legs, (w.objects i).Plain) (hdistinct : legs.Nodup) {n : Number} {atomic : Bool}
    (hfalse : (consumeIn legs n atomic t t' w.objects).2.2 = .ok false) :
    Alike t' w.objects (consumeIn legs n atomic t t' w.objects).1 ∨
      atomic = false ∧ ∃ charged i rest, legs = charged ++ i :: rest ∧ RefusedAt w (units n) t' charged i ∧
        Alike t' (consumeIn legs n atomic t t' w.objects).1
          (run after w ((charged ++ [i]).map (direct (units n) t'))).objects := by
  unfold consumeIn at hfalse ⊢
  split at hfalse
  · cases hfalse
  · cases hfalse
  next want hcount =>
  rw [units_eq hcount]
  split at hfalse
  swap
  · cases hfalse
  next hcapable =>
  rw [if_pos hcapable]
  have hasked := preflight_asked (want + 1) t hdistinct true w.objects
  generalize preflight (want + 1) t legs true w.objects = r at hasked hfalse ⊢
  obtain ⟨hsame, hnofail⟩ := preflight_plain h hplain hasked
  have hlater := hsame.later hle
  obtain ⟨g, p⟩ := r
  cases p with
  | refused => exact Or.inl hlater
  | failed => exact absurd rfl hnofail
  | passed all =>
    have hall : all = legs.all fun i => (w.objects i).has .available := (hasked.passed all rfl).1
    dsimp only at hfalse hlater ⊢
    split at hfalse
    · next hcommit =>
      rw [if_pos hcommit]
      have hafford := preflight_affords h hle hplain hasked rfl
      obtain ⟨charged, i, rest, hlegs, hi, hadmits, hrefuses, hend⟩ :=
        commit_refused (w := w) (fun i => (hlater i).symm) hdistinct hafford hfalse
      have hthird : (w.objects i).shipped = false := by rwa [(hlater i).shipped]
      refine Or.inr ⟨?_, charged, i, rest, hlegs, ⟨hthird, hadmits, hrefuses⟩, hend⟩
      -- over legs that all have `available()` there is no third-party one
      by_contra hatomic
      rw [Bool.eq_true_of_not_eq_false hatomic, Bool.not_true, Bool.false_or, hall, List.all_eq_true] at hcommit
      have hmem : i ∈ legs := by
        rw [hlegs]
        simp
      have hhas := hcommit i hmem
      rw [(hplain i hmem).has_available, hthird] at hhas
      cases hhas
    · next hcommit =>
      -- some leg cannot be asked, and none that cannot can be undone
      rw [if_neg hcommit]
      have hsome : (legs.all fun i => (w.objects i).has .available) = false := by
        rw [← hall]
        by_contra hall'
        rw [Bool.eq_true_of_not_eq_false hall', Bool.or_true] at hcommit
        exact hcommit rfl
      obtain ⟨i, hi, hhas⟩ := List.all_eq_false.mp hsome
      have hthird : (w.objects i).shipped = false := by
        rw [← (hplain i hi).has_available]
        exact Bool.eq_false_of_not_eq_true hhas
      have hundo : ¬(legs.all fun i => supportsUndo (g i)) = true := by
        rw [← supportsUndo_congr fun i => (hlater i).has, List.all_eq_true]
        intro hundo
        have := hundo i hi
        rw [(hplain i hi).supportsUndo hthird] at this
        cases this
      rw [if_neg hundo]
      exact Or.inl hlater

end

/-! ## Runs -/

/-- A limiter as its constructor made it. -/
def Leg.New (builtAt : ℚ) : Leg τ → Prop
  | .gcra l => ∃ o, Gcra.new o = .ok l
  | .throttle l => ∃ o, Throttle.new o builtAt = .ok l
  | .window w => ∃ o, SlidingWindow.new o = .ok w
  | .thirdParty _ _ => True

/-- No clock goes back, from the readings the limiters were made at. -/
structure GoesOn (builtAt : ℕ → ℚ) (events : List Event) : Prop where
  built : ∀ e ∈ events, builtAt ≤ e.first
  within : ∀ e ∈ events, e.first ≤ e.again
  between : events.Pairwise fun e e' => e.again ≤ e'.first

section
variable {w w' : World τ} {builtAt : ℕ → ℚ}

theorem Leg.New.alike {l : Leg τ} {t : ℚ} (h : l.New t) : l.Alike t l := by
  cases l with
  | gcra l =>
    obtain ⟨o, ho⟩ := h
    exact .gcra ⟨(Gcra.holds_new ho).1, Gcra.per_new ho⟩
  | throttle l =>
    obtain ⟨o, ho⟩ := h
    obtain ⟨hholds, hlast⟩ := Throttle.holds_new ho
    exact .throttle (Refills.refl hholds hlast.le)
  | window w =>
    obtain ⟨o, ho⟩ := h
    exact .window (Prunes.of_eq ⟨rfl, rfl⟩ (SlidingWindow.holds_new ho).1 (SlidingWindow.holds_new ho).1
      fun _ hx => absurd hx List.not_mem_nil)
  | thirdParty like state => exact .thirdParty like state

/-- What a run leaves, on clocks that go on: a world that no later call tells from itself. -/
theorem run_self (hnew : ∀ i, (w.objects i).New (builtAt i)) (before : List Event) (e : Event)
    (later : List Event) (hclock : GoesOn builtAt (before ++ e :: later)) :
    (run after w before).Alike e.first (run after w before) := by
  have hself : w.Alike builtAt w := ⟨fun i => (hnew i).alike, rfl, rfl, rfl⟩
  obtain ⟨hbefore, -, hbetween⟩ := List.pairwise_append.mp hclock.between
  refine run_alike step Event.first Event.again (fun s s' t t' h hle => h.later hle)
    (fun s s' e h hle => (step_alike e h hle).2) ?_ ?_ ?_ hbefore
  · exact fun e' he' => hself.later (hclock.built e' (List.mem_append_left _ he'))
  · exact hself.later (hclock.built e (by simp))
  · intro e' he'
    exact ⟨hclock.within e' (List.mem_append_left _ he'), hbetween e' he' e List.mem_cons_self⟩

/-- Worlds that are alike when a call ends answer alike from then on. -/
theorem answers_later {s s' : World τ} {before later : List Event} {e : Event}
    (hclock : GoesOn builtAt (before ++ e :: later)) (h : s.Alike e.again s') :
    answers step s later = answers step s' later := by
  obtain ⟨-, hrest, -⟩ := List.pairwise_append.mp hclock.between
  obtain ⟨hfirst, hlater⟩ := List.pairwise_cons.mp hrest
  refine answers_eq step Event.first Event.again (fun s s' t t' h hle => h.later hle)
    (fun s s' e h hle => step_alike e h hle) ?_ ?_ hlater
  · exact fun e' he' => h.later (hfirst e' he')
  · exact fun e' he' => hclock.within e' (by simp [he'])

theorem run_direct_limit (w : World τ) (want : ℕ) (now : ℕ → ℚ) (legs : List ℕ) :
    (run after w (legs.map (direct want now))).limit = w.limit := by
  induction legs generalizing w with
  | nil => rfl
  | cons i legs ih => exact ih (after w (direct want now i))

/-- What a refused request leaves alike. -/
theorem after_refused {s : World τ} {e : Event} (hself : s.Alike e.first s) (hle : e.first ≤ e.again)
    (hplain : ∀ i ∈ s.limit.limiters, (s.objects i).Plain) (hdistinct : s.limit.limiters.Nodup) {n : Number}
    {atomic : Option Bool} {shared : Shared} (he : e.call = .tryConsume n atomic shared)
    (hrefused : (step s e).2 = some (.admits false)) :
    s.Alike e.again (after s e) ∨
      atomic.getD s.limit.atomicDefault = false ∧ ∃ charged i rest, s.limit.limiters = charged ++ i :: rest ∧
        RefusedAt s (units n) e.again charged i ∧
        (after s e).Alike e.again (run after s ((charged ++ [i]).map (direct (units n) e.again))) := by
  have hcall : (consume s n atomic shared e.first e.again).2 = .ok false := by
    simp only [step, he, tryConsume] at hrefused
    generalize (consume s n atomic shared e.first e.again).2 = r at hrefused ⊢
    cases r with
    | error _ => cases hrefused
    | ok ok =>
      cases hrefused
      rfl
  unfold after
  simp only [step, he, tryConsume]
  cases hasked : (pathOf s.limit.degrade shared).2 with
  | false =>
    simp only [consume, hasked]
    exact Or.inl ⟨hself.objects.later hle, rfl, rfl, rfl⟩
  | true =>
    simp only [consume, hasked, if_true] at hcall ⊢
    rcases consumeIn_refused hself.objects hle hplain hdistinct hcall with
      halike | ⟨hatomic, charged, i, rest, hlegs, hat, halike⟩
    · exact Or.inl ⟨halike, rfl, rfl, rfl⟩
    · have hlimit := run_direct_limit s (units n) e.again (charged ++ [i])
      refine Or.inr ⟨hatomic, charged, i, rest, hlegs, hat, halike, ?_, ?_, ?_⟩
      · exact (congrArg Composer.limiters hlimit).symm
      · exact (congrArg Composer.atomicDefault hlimit).symm
      · exact (congrArg Composer.degrade hlimit).symm

/-- A request that is refused leaves every leg answering as if it had not been made; or it was
not atomic and a third-party leg refused, and the legs before that one are charged with it. -/
theorem refused_untouched (hnew : ∀ i, (w.objects i).New (builtAt i))
    (hplain : ∀ i ∈ w.limit.limiters, (w.objects i).Plain) (hdistinct : w.limit.limiters.Nodup)
    (before : List Event) (e : Event) (later : List Event)
    (hclock : GoesOn builtAt (before ++ e :: later)) {n : Number} {atomic : Option Bool} {shared : Shared}
    (he : e.call = .tryConsume n atomic shared)
    (hrefused : (step (run after w before) e).2 = some (.admits false)) :
    answers step (after (run after w before) e) later = answers step (run after w before) later ∨
      atomic.getD w.limit.atomicDefault = false ∧ ∃ charged i rest,
        w.limit.limiters = charged ++ i :: rest ∧
        RefusedAt (run after w before) (units n) e.again charged i ∧
        answers step (after (run after w before) e) later =
          answers step (run after w (before ++ (charged ++ [i]).map (direct (units n) e.again))) later := by
  have hself := run_self hnew before e later hclock
  have hkept : Kept w (run after w before) := by
    have hall := always_of_step (P := Kept w) (fun w' e h => after_kept e h)
      ⟨fun _ => rfl, fun _ => rfl, rfl, rfl⟩ before
    exact hall.last
  have hle : e.first ≤ e.again := hclock.within e (by simp)
  have hplain' : ∀ i ∈ (run after w before).limit.limiters, ((run after w before).objects i).Plain := by
    rw [hkept.limiters]
    intro i hi
    unfold Leg.Plain
    rw [hkept.has, hkept.shipped]
    exact hplain i hi
  have hrest := after_refused hself hle hplain' (by rwa [hkept.limiters]) he hrefused
  rw [hkept.limiters, hkept.atomicDefault] at hrest
  rcases hrest with halike | ⟨hatomic, charged, i, rest, hlegs, hat, halike⟩
  · exact Or.inl (answers_later hclock halike).symm
  · refine Or.inr ⟨hatomic, charged, i, rest, hlegs, hat, ?_⟩
    rw [run_append]
    exact answers_later hclock halike

end

/-- A third-party limiter with so many units left, which `tryConsume` and `reset` is all of. -/
def counter : RateLimiterLike ℕ where
  has m := m = .tryConsume || m = .reset
  call left r _ := match r with
    | .tryConsume n => if units n ≤ left then (left - units n, .ok (.admits true)) else (left, .ok (.admits false))
    | _ => (0, .ok .done)

/-- A bucket of one token, a window of three units in ten milliseconds, and spent counters. -/
def limiters : Objects ℕ
  | 0 => .throttle ⟨1, 1, 1, 0, 0, 0⟩
  | 1 => .window ⟨3, 10, ⟨16, fun _ => none, 0, 0, 0, 0⟩⟩
  | _ => .thirdParty counter 0

theorem limiters_new (i : ℕ) : (limiters i).New 0 :=
  match i with
  | 0 => ⟨_, Throttle.new_onePerSecond⟩
  | 1 => ⟨_, SlidingWindow.new_threeInTen⟩
  | _ + 2 => trivial

theorem limiters_plain (i : ℕ) : (limiters i).Plain :=
  match i with
  | 0 | 1 => Or.inl rfl
  | _ + 2 => Or.inr fun m h => by simpa [limiters, Leg.has, counter] using h

/-- A composition of these. -/
def composed (legs : List ℕ) (atomic : Bool) : World ℕ := ⟨limiters, new legs atomic none⟩

/-- A call when all clocks show a time. -/
def whenAll (now : ℚ) (call : Call) : Event := ⟨call, fun _ => now, fun _ => now⟩

/-- One unit, of the composition and of a leg. -/
def one : Call := .tryConsume (.finite 1) none .ok

def oneOf (i : ℕ) : Call := .leg i (.tryConsume (.finite 1))

theorem goesOn_now : GoesOn 0 [whenAll 0 one, whenAll 0 (oneOf 0)] := by
  refine ⟨?_, ?_, ?_⟩
  · intro e he
    rcases List.mem_pair.mp he with rfl | rfl <;> exact le_rfl
  · intro e he
    rcases List.mem_pair.mp he with rfl | rfl <;> exact le_rfl
  · exact List.pairwise_pair.mpr le_rfl

theorem refused_untouched_composed :
    let w := composed [0, 2] false
    let s := after w (whenAll 0 one)
    answers step s [whenAll 0 (oneOf 0)] = answers step w [whenAll 0 (oneOf 0)] ∨
      (none : Option Bool).getD w.limit.atomicDefault = false ∧ ∃ charged i rest,
        w.limit.limiters = charged ++ i :: rest ∧ RefusedAt w (units (.finite 1)) (fun _ => 0) charged i ∧
        answers step s [whenAll 0 (oneOf 0)] =
          answers step (run after w ((charged ++ [i]).map (direct (units (.finite 1)) fun _ => 0)))
            [whenAll 0 (oneOf 0)] := by
  intro w s
  exact refused_untouched (w := w) limiters_new (fun i _ => limiters_plain i) (by decide) [] (whenAll 0 one)
    [whenAll 0 (oneOf 0)] goesOn_now rfl (by decide +kernel)

/-- A request is refused, and a later call tells that it was made. -/
def Told (w : World ℕ) (request later : Event) : Prop :=
  (step w request).2 = some (.admits false) ∧ answers step (after w request) [later] ≠ answers step w [later]

instance (w : World ℕ) (request later : Event) : Decidable (Told w request later) :=
  inferInstanceAs (Decidable (_ ∧ _))

/-- A request that is not atomic and that a third-party leg refuses, an atomic one of a limiter
that is listed twice, and an atomic one that is made before a clock goes back. -/
theorem refused_told :
    Told (composed [0, 2] false) (whenAll 0 one) (whenAll 0 (oneOf 0)) ∧
    Told (composed [0, 0] true) (whenAll 0 one) (whenAll 0 (oneOf 0)) ∧
    Told (run after (composed [1, 0] true)
        [whenAll 0 (.leg 1 (.tryConsume (.finite 3))), whenAll 0 (oneOf 0)])
      (whenAll 100 one) (whenAll 5 (oneOf 1)) := by
  decide +kernel

end PerformanceHelpers.RateLimit
