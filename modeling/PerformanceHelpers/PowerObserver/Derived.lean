import PerformanceHelpers.Run
import Mathlib.Order.Nat

/- Derived observers (`lazyChain`, `derived` and `combineLatest` of
   `src/helpers/powerObserver.js`): what `derive`, `computed`, `filter`, `distinct` and
   `combineLatest` return, attached to its sources when it is first subscribed to, and detached
   when the last of its subscribers leaves.

   Observers are numbered in the order they are built in, so that the sources of one come before
   it, and one without sources is not derived. The functions an observer subscribes to its
   sources are fresh each time it attaches; those of before are gone by then, so that the
   observer and the place of the source name them. What the observers hold and tell is left out.

   What is proved:
     `derived_lazy` — in every run in which only what is a function is subscribed to an observer
     that is not attached, nothing upstream of which is disposed, no observer is cleared or
     disposed that others need, and no function is unsubscribed that another registration has
     subscribed as well, each observer is subscribed to each of its sources exactly when it has
     subscribers, and no registration loses its subscription with another. -/
namespace PerformanceHelpers.PowerObserver.Derived
open Function (update_of_ne update update_self)

/-- What each observer is derived from. -/
structure Chain where
  sources : ℕ → List ℕ
  earlier : ∀ i, ∀ j ∈ sources i, j < i

/-- A function that is subscribed: a caller's, or what an observer subscribes to the `k`-th of
its sources. -/
inductive Listener where
  | user (fn : ℕ)
  | inner (i k : ℕ)
  deriving DecidableEq

/-- A call of `subscribe` by its `done`. It has `ended`, which is not the code's, when the
observer has been cleared or disposed since. -/
structure Registration where
  observer : ℕ
  fn : ℕ
  done : Bool := false
  ended : Bool := false
  deriving DecidableEq

/-- The caller has not unsubscribed, and the observer has not been cleared or disposed. -/
def Registration.Live (r : Registration) : Prop := r.done = false ∧ r.ended = false

/-- The observers: `_subs`, whether `release` or `releases` is set, and `_disposed`. -/
structure Network where
  subs : ℕ → List Listener := fun _ => []
  attached : ℕ → Bool := fun _ => false
  disposed : ℕ → Bool := fun _ => false
  registrations : List Registration := []

/-- A call of a method of an observer, or of what a `subscribe` returned. -/
inductive Event where
  | subscribe (i fn : ℕ) (isFunction : Bool)
  | unsubscribe (r : ℕ)
  | clear (i : ℕ)
  | dispose (i : ℕ)

namespace Network

/-- `subscribe` of a plain observer. -/
def add (N : Network) (i : ℕ) (l : Listener) : Network :=
  if N.disposed i = true ∨ l ∈ N.subs i then N
  else { N with subs := Function.update N.subs i (N.subs i ++ [l]) }

def delete (N : Network) (i : ℕ) (l : Listener) : Network :=
  { N with subs := Function.update N.subs i ((N.subs i).filter (· ≠ l)) }

/-- `_subs.clear`, which ends the registrations there are. -/
def clear (N : Network) (i : ℕ) : Network :=
  { N with
    subs := Function.update N.subs i []
    registrations := N.registrations.map fun r => if r.observer = i then { r with ended := true } else r }

variable (c : Chain)

/-- `attach`, through as many levels. -/
def attach : ℕ → ℕ → Network → Network
  | 0, _, N => N
  | fuel + 1, i, N =>
    if c.sources i = [] ∨ N.attached i = true then N
    else
      let N := (c.sources i).zipIdx.foldl
        (fun N p => (attach fuel p.1 N).add p.1 (.inner i p.2)) N
      { N with attached := Function.update N.attached i true }

/-- `detach`, through as many levels. -/
def detach : ℕ → ℕ → Network → Network
  | 0, _, N => N
  | fuel + 1, i, N =>
    if N.attached i = true then
      let N := (c.sources i).zipIdx.foldl
        (fun N p =>
          let N := N.delete p.1 (.inner i p.2)
          if N.subs p.1 = [] then detach fuel p.1 N else N) N
      { N with attached := Function.update N.attached i false }
    else N

/-- `subscribe` of what `lazyChain` returns, and of a plain observer. A disposed observer does
not look at the listener, and one that is not throws where it is not a function. -/
def subscribe (N : Network) (i fn : ℕ) (isFunction : Bool) : Network :=
  let N := attach c (i + 1) i N
  if N.disposed i = false ∧ isFunction = false then N
  else
    let N := N.add i (.user fn)
    { N with
      registrations := N.registrations ++ [{ observer := i, fn, ended := N.disposed i }] }

/-- What `subscribe` returned is called: that of a plain observer has no `done`, and a disposed
observer has nothing to delete. -/
def unsubscribe (N : Network) (r : ℕ) : Network :=
  match N.registrations[r]? with
  | none => N
  | some reg =>
    if c.sources reg.observer ≠ [] ∧ reg.done = true then N
    else
      let N := { N with registrations := N.registrations.set r { reg with done := true } }
      let N := N.delete reg.observer (.user reg.fn)
      if N.subs reg.observer = [] then detach c (reg.observer + 1) reg.observer N else N

def dispose (N : Network) (i : ℕ) : Network :=
  let N := detach c (i + 1) i N
  if N.disposed i = true then N
  else { N.clear i with disposed := Function.update N.disposed i true }

def step (N : Network) : Event → Network
  | .subscribe i fn isFunction => N.subscribe c i fn isFunction
  | .unsubscribe r => N.unsubscribe c r
  | .clear i => N.clear i
  | .dispose i => N.dispose c i

/-! ## What a chain promises -/

/-- Each observer is subscribed to each of its sources exactly when it has subscribers, and a
derived observer tells whoever has not unsubscribed. -/
structure Lazy (N : Network) : Prop where
  subscribed : ∀ i k j, (c.sources i)[k]? = some j → (.inner i k ∈ N.subs j ↔ N.subs i ≠ [])
  told : ∀ reg ∈ N.registrations, c.sources reg.observer ≠ [] → reg.Live →
    .user reg.fn ∈ N.subs reg.observer

/-- The observer is derived from the other, through any number of levels, or is the other. -/
def Upstream : ℕ → ℕ → Prop := Relation.ReflTransGen fun i j => j ∈ c.sources i

def Alive (N : Network) (i : ℕ) : Prop := ∀ j, Upstream c i j → N.disposed j = false

def Unneeded (N : Network) (i : ℕ) : Prop := ∀ m k, .inner m k ∉ N.subs i

/-- A derived observer without subscribers is subscribed to only with a function while nothing
upstream of it is disposed, one that others are derived from is not cleared or disposed while
they are subscribed to it, and a derived one is not cleared while it has subscribers; and a
function that two registrations have subscribed to one observer is not unsubscribed. -/
def Careful (N : Network) : Event → Prop
  | .subscribe i _ isFunction =>
    c.sources i ≠ [] →
      (isFunction = true ∨ N.subs i ≠ []) ∧ N.Alive c i
  | .unsubscribe r =>
    ∀ reg, N.registrations[r]? = some reg → c.sources reg.observer ≠ [] → reg.done = false →
      ∀ r' reg', N.registrations[r']? = some reg' → r' ≠ r → reg'.Live →
        reg'.observer = reg.observer → reg'.fn ≠ reg.fn
  | .clear i => if c.sources i = [] then N.Unneeded i else N.subs i = []
  | .dispose i => N.Unneeded i

/-! ## Attaching and detaching -/

def Outer (b : ℕ) (l : Listener) : Prop := ∀ i k, l = .inner i k → b ≤ i

def Wired (N : Network) (i : ℕ) : Prop :=
  ∀ k j, (c.sources i)[k]? = some j → (.inner i k ∈ N.subs j ↔ N.attached i = true)

/-- The derived observers below a level are attached exactly when they have subscribers. -/
def Settled (N : Network) (b : ℕ) : Prop :=
  ∀ i < b, N.Wired c i ∧ (c.sources i ≠ [] → (N.attached i = true ↔ N.subs i ≠ []))

/-- An observer is wired to its sources as long as it is attached, and attached as long as it
has subscribers. -/
structure Sound (N : Network) : Prop where
  settled : ∀ b, N.Settled c b
  told : ∀ reg ∈ N.registrations, c.sources reg.observer ≠ [] → reg.Live →
    .user reg.fn ∈ N.subs reg.observer
  gone : ∀ i, N.disposed i = true → N.subs i = []

/-- What has changed is what observers below a level hold of others below it. -/
structure Within (b : ℕ) (N N' : Network) : Prop where
  disposed : N'.disposed = N.disposed
  registrations : N'.registrations = N.registrations
  attached : ∀ i, b ≤ i → N'.attached i = N.attached i
  subs : ∀ j, b ≤ j → N'.subs j = N.subs j
  outer : ∀ j l, Outer b l → (l ∈ N'.subs j ↔ l ∈ N.subs j)
  stopped : ∀ j, N.disposed j = true → N'.subs j ⊆ N.subs j

structure Switched (N : Network) (i : ℕ) (on : Bool) (N' : Network) : Prop extends
    Within (i + 1) N N' where
  settled : N'.Settled c i
  wired : N'.Wired c i
  own : N'.subs i = N.subs i
  switched : c.sources i ≠ [] → N'.attached i = on

/-- One listener of one observer has come or gone, with what it takes below a level. -/
structure Turned (b : ℕ) (N N' : Network) (held : ℕ → Listener → Prop) : Prop where
  settled : N'.Settled c b
  disposed : N'.disposed = N.disposed
  registrations : N'.registrations = N.registrations
  attached : ∀ i, b ≤ i → N'.attached i = N.attached i
  subs : ∀ j, b ≤ j → N'.subs j = N.subs j
  held : ∀ j l, Outer b l → (l ∈ N'.subs j ↔ held j l)
  stopped : ∀ j, N.disposed j = true → N'.subs j ⊆ N.subs j

section
variable {c : Chain} {N N' : Network} {b i s : ℕ} {l : Listener}

theorem Outer.mono {b' : ℕ} (h : Outer b l) (hle : b' ≤ b) : Outer b' l :=
  fun i k hl => Nat.le_trans hle (h i k hl)

theorem Outer.ne (h : Outer b l) (hi : i < b) (k : ℕ) : Listener.inner i k ≠ l :=
  fun hl => absurd (h i k hl.symm) (Nat.not_le.mpr hi)

theorem Settled.mono {b' : ℕ} (h : N.Settled c b) (hle : b' ≤ b) : N.Settled c b' :=
  fun i hi => h i (Nat.lt_of_lt_of_le hi hle)

theorem mem_add (halive : N.disposed s = false) (j : ℕ) (l' : Listener) :
    l' ∈ (N.add s l).subs j ↔ l' ∈ N.subs j ∨ j = s ∧ l' = l := by
  unfold add
  split
  · next h =>
    have hl : l ∈ N.subs s := h.resolve_left (by rw [halive]; exact Bool.false_ne_true)
    constructor
    · exact Or.inl
    · rintro (h | ⟨rfl, rfl⟩)
      · exact h
      · exact hl
  · by_cases hj : j = s
    · subst hj
      simp
    · simp [hj]

theorem mem_delete (j : ℕ) (l' : Listener) :
    l' ∈ (N.delete s l).subs j ↔ l' ∈ N.subs j ∧ ¬ (j = s ∧ l' = l) := by
  unfold delete
  by_cases hj : j = s
  · subst hj
    simp
  · simp [hj]

theorem add_subs_of_ne {j : ℕ} (hj : j ≠ s) : (N.add s l).subs j = N.subs j := by
  unfold add
  split
  · rfl
  · exact update_of_ne hj _ _

theorem delete_subs_of_ne {j : ℕ} (hj : j ≠ s) : (N.delete s l).subs j = N.subs j :=
  update_of_ne hj _ _

theorem add_of_disposed {j : ℕ} (hj : N.disposed j = true) : (N.add s l).subs j = N.subs j := by
  by_cases hjs : j = s
  · subst hjs
    unfold add
    rw [if_pos (Or.inl hj)]
  · exact add_subs_of_ne hjs

theorem add_attached : (N.add s l).attached = N.attached := by
  unfold add
  split <;> rfl

theorem add_disposed : (N.add s l).disposed = N.disposed := by
  unfold add
  split <;> rfl

theorem add_registrations : (N.add s l).registrations = N.registrations := by
  unfold add
  split <;> rfl

theorem Wired.congr (h : N.Wired c i) (hheld : ∀ k j, .inner i k ∈ N'.subs j ↔ .inner i k ∈ N.subs j)
    (hattached : N'.attached i = N.attached i) : N'.Wired c i := by
  intro k j hj
  rw [hheld k j, hattached]
  exact h k j hj

/-- An observer that has been attached is subscribed to. -/
theorem Switched.turned_add (h : N'.Switched c i true N) (hs : N'.Settled c b) (hi : i < b)
    (hl : Outer b l) (halive : N'.disposed i = false) :
    N'.Turned c b (N.add i l) fun j l' => l' ∈ N'.subs j ∨ j = i ∧ l' = l := by
  have halive' : N.disposed i = false := (congrFun h.disposed i).trans halive
  have hkept : ∀ m < b, ∀ k j, .inner m k ∈ (N.add i l).subs j ↔ .inner m k ∈ N.subs j := by
    intro m hm k j
    rw [mem_add halive']
    exact or_iff_left fun heq => hl.ne hm k heq.2
  refine ⟨fun m hm => ?_, ?_, ?_, fun m hm => ?_, fun j hj => ?_, fun j l' hl' => ?_,
    fun j hj => ?_⟩
  · rcases Nat.lt_trichotomy m i with hmi | rfl | hmi
    · refine ⟨(h.settled m hmi).1.congr (hkept m hm) (congrFun add_attached m), fun hd => ?_⟩
      rw [add_attached, add_subs_of_ne hmi.ne]
      exact (h.settled m hmi).2 hd
    · refine ⟨h.wired.congr (hkept m hm) (congrFun add_attached m), fun hd => ?_⟩
      rw [add_attached, h.switched hd]
      have hmem : l ∈ (N.add m l).subs m := (mem_add halive' m l).mpr (Or.inr ⟨rfl, rfl⟩)
      exact iff_of_true rfl (List.ne_nil_of_mem hmem)
    · have hattached : (N.add i l).attached m = N'.attached m :=
        (congrFun add_attached m).trans (h.attached m hmi)
      refine ⟨(hs m hm).1.congr (fun k j => ?_) hattached, fun hd => ?_⟩
      · rw [hkept m hm k j]
        refine h.outer j _ fun m' k' heq => ?_
        obtain ⟨rfl, -⟩ := Listener.inner.inj heq
        exact hmi
      · rw [hattached, add_subs_of_ne hmi.ne', h.subs m hmi]
        exact (hs m hm).2 hd
  · exact add_disposed.trans h.disposed
  · exact add_registrations.trans h.registrations
  · exact (congrFun add_attached m).trans (h.attached m (Nat.lt_of_lt_of_le hi hm))
  · rw [add_subs_of_ne (Nat.lt_of_lt_of_le hi hj).ne', h.subs j (Nat.lt_of_lt_of_le hi hj)]
  · rw [mem_add halive', h.outer j l' (hl'.mono hi)]
  · rw [add_of_disposed ((congrFun h.disposed j).trans hj)]
    exact h.stopped j hj

/-- A listener is deleted, and an observer that no longer has any is detached. -/
theorem turned_delete {fuel : ℕ} (hs : N.Settled c b) (hi : i < b) (hl : Outer b l)
    (hdetach : ∀ N₁ : Network, N₁.Settled c i → N₁.Wired c i → N₁.Switched c i false (detach c fuel i N₁)) :
    N.Turned c b
      (if (N.delete i l).subs i = [] then detach c fuel i (N.delete i l) else N.delete i l)
      fun j l' => l' ∈ N.subs j ∧ ¬ (j = i ∧ l' = l) := by
  have hkept : ∀ m < b, ∀ k j, .inner m k ∈ (N.delete i l).subs j ↔ .inner m k ∈ N.subs j := by
    intro m hm k j
    rw [mem_delete]
    exact and_iff_left fun heq => hl.ne hm k heq.2
  have hfewer : ∀ {j : ℕ}, (N.delete i l).subs j ⊆ N.subs j :=
    fun {j l'} hl' => ((mem_delete j l').mp hl').1
  have hwired : ∀ m < b, (N.delete i l).Wired c m := fun m hm => (hs m hm).1.congr (hkept m hm) rfl
  have hothers : ∀ m < b, m ≠ i → c.sources m ≠ [] →
      ((N.delete i l).attached m = true ↔ (N.delete i l).subs m ≠ []) := by
    intro m hm hne hd
    rw [delete_subs_of_ne hne]
    exact (hs m hm).2 hd
  split
  · next hempty =>
    have h := hdetach (N.delete i l)
      (fun m hm => ⟨hwired m (hm.trans hi), hothers m (hm.trans hi) hm.ne⟩) (hwired i hi)
    refine ⟨fun m hm => ?_, h.disposed, h.registrations, fun m hm => ?_, fun j hj => ?_,
      fun j l' hl' => ?_, fun j hj => List.Subset.trans (h.stopped j hj) hfewer⟩
    · rcases Nat.lt_trichotomy m i with hmi | rfl | hmi
      · exact h.settled m hmi
      · refine ⟨h.wired, fun hd => ?_⟩
        rw [h.switched hd, h.own, hempty]
        simp
      · refine ⟨(hwired m hm).congr (fun k j => ?_) (h.attached m hmi), fun hd => ?_⟩
        · refine h.outer j _ fun m' k' heq => ?_
          obtain ⟨rfl, -⟩ := Listener.inner.inj heq
          exact hmi
        · rw [h.attached m hmi, h.subs m hmi]
          exact hothers m hm hmi.ne' hd
    · exact h.attached m (Nat.lt_of_lt_of_le hi hm)
    · rw [h.subs j (Nat.lt_of_lt_of_le hi hj), delete_subs_of_ne (Nat.lt_of_lt_of_le hi hj).ne']
    · rw [h.outer j l' (hl'.mono hi), mem_delete]
  · next hsome =>
    refine ⟨fun m hm => ⟨hwired m hm, fun hd => ?_⟩, rfl, rfl, fun _ _ => rfl, fun j hj => ?_,
      fun j l' _ => mem_delete j l', fun _ _ => hfewer⟩
    · by_cases hmi : m = i
      · subst hmi
        have hsome' : N.subs m ≠ [] := by
          obtain ⟨l', hl'⟩ := List.exists_mem_of_ne_nil _ hsome
          exact List.ne_nil_of_mem ((mem_delete m l').mp hl').1
        exact iff_of_true (((hs m hm).2 hd).mpr hsome') hsome
      · exact hothers m hm hmi hd
    · exact delete_subs_of_ne (Nat.lt_of_lt_of_le hi hj).ne'

theorem Alive.self (h : N.Alive c i) : N.disposed i = false := h i Relation.ReflTransGen.refl

theorem Alive.source (h : N.Alive c i) (hs : s ∈ c.sources i) : N.Alive c s :=
  fun j hj => h j (Relation.ReflTransGen.head hs hj)

theorem Alive.congr (h : N.Alive c i) (hdisposed : N'.disposed = N.disposed) : N'.Alive c i :=
  fun j hj => (congrFun hdisposed j).trans (h j hj)

theorem outer_inner (i k : ℕ) : Outer i (.inner i k) := by
  intro m k' h
  obtain ⟨rfl, -⟩ := Listener.inner.inj h
  exact Nat.le_refl i

/-- The sources are subscribed to one by one, which leaves the levels below as they should be. -/
theorem attach_sources (fuel : ℕ) (ps : List (ℕ × ℕ)) (hs : N.Settled c i)
    (hps : ∀ p ∈ ps, p.1 < i ∧ N.Alive c p.1)
    (hattach : ∀ s < i, ∀ N₁ : Network, N₁.Settled c s → N₁.Wired c s → N₁.Alive c s →
      N₁.Switched c s true (attach c fuel s N₁)) :
    N.Turned c i (ps.foldl (fun N p => (attach c fuel p.1 N).add p.1 (.inner i p.2)) N)
      fun j l => l ∈ N.subs j ∨ ∃ k, (j, k) ∈ ps ∧ l = .inner i k := by
  induction ps generalizing N with
  | nil => exact ⟨hs, rfl, rfl, fun _ _ => rfl, fun _ _ => rfl, fun j l _ => by simp,
      fun _ _ => List.Subset.refl _⟩
  | cons p ps ih =>
    obtain ⟨hlt, halive⟩ := hps p List.mem_cons_self
    have hfirst := (hattach p.1 hlt N (hs.mono hlt.le) (hs p.1 hlt).1 halive).turned_add hs hlt
      (outer_inner i p.2) halive.self
    have hrest := ih hfirst.settled fun q hq =>
      ⟨(hps q (List.mem_cons_of_mem _ hq)).1,
        (hps q (List.mem_cons_of_mem _ hq)).2.congr hfirst.disposed⟩
    refine ⟨hrest.settled, hrest.disposed.trans hfirst.disposed,
      hrest.registrations.trans hfirst.registrations,
      fun m hm => (hrest.attached m hm).trans (hfirst.attached m hm),
      fun j hj => (hrest.subs j hj).trans (hfirst.subs j hj), fun j l hl => ?_,
      fun j hj =>
        List.Subset.trans (hrest.stopped j ((congrFun hfirst.disposed j).trans hj))
          (hfirst.stopped j hj)⟩
    rw [List.foldl_cons, hrest.held j l hl, hfirst.held j l hl]
    constructor
    · rintro ((h | ⟨rfl, rfl⟩) | ⟨k, hk, rfl⟩)
      · exact Or.inl h
      · exact Or.inr ⟨p.2, List.mem_cons_self, rfl⟩
      · exact Or.inr ⟨k, List.mem_cons_of_mem _ hk, rfl⟩
    · rintro (h | ⟨k, hk, rfl⟩)
      · exact Or.inl (Or.inl h)
      · rcases List.mem_cons.mp hk with rfl | hk
        · exact Or.inl (Or.inr ⟨rfl, rfl⟩)
        · exact Or.inr ⟨k, hk, rfl⟩

theorem detach_sources (fuel : ℕ) (ps : List (ℕ × ℕ)) (hs : N.Settled c i) (hps : ∀ p ∈ ps, p.1 < i)
    (hdetach : ∀ s < i, ∀ N₁ : Network, N₁.Settled c s → N₁.Wired c s →
      N₁.Switched c s false (detach c fuel s N₁)) :
    N.Turned c i
      (ps.foldl (fun N p => if (N.delete p.1 (.inner i p.2)).subs p.1 = [] then
        detach c fuel p.1 (N.delete p.1 (.inner i p.2)) else N.delete p.1 (.inner i p.2)) N)
      fun j l => l ∈ N.subs j ∧ ¬ ∃ k, (j, k) ∈ ps ∧ l = .inner i k := by
  induction ps generalizing N with
  | nil => exact ⟨hs, rfl, rfl, fun _ _ => rfl, fun _ _ => rfl, fun j l _ => by simp,
      fun _ _ => List.Subset.refl _⟩
  | cons p ps ih =>
    have hlt := hps p List.mem_cons_self
    have hfirst := turned_delete hs hlt (outer_inner i p.2) (hdetach p.1 hlt)
    have hrest := ih hfirst.settled fun q hq => hps q (List.mem_cons_of_mem _ hq)
    refine ⟨hrest.settled, hrest.disposed.trans hfirst.disposed,
      hrest.registrations.trans hfirst.registrations,
      fun m hm => (hrest.attached m hm).trans (hfirst.attached m hm),
      fun j hj => (hrest.subs j hj).trans (hfirst.subs j hj), fun j l hl => ?_,
      fun j hj =>
        List.Subset.trans (hrest.stopped j ((congrFun hfirst.disposed j).trans hj))
          (hfirst.stopped j hj)⟩
    rw [List.foldl_cons, hrest.held j l hl, hfirst.held j l hl]
    constructor
    · rintro ⟨⟨hmem, hne⟩, hnot⟩
      refine ⟨hmem, ?_⟩
      rintro ⟨k, hk, rfl⟩
      rcases List.mem_cons.mp hk with rfl | hk
      · exact hne ⟨rfl, rfl⟩
      · exact hnot ⟨k, hk, rfl⟩
    · rintro ⟨hmem, hnot⟩
      refine ⟨⟨hmem, ?_⟩, fun ⟨k, hk, hl⟩ => hnot ⟨k, List.mem_cons_of_mem _ hk, hl⟩⟩
      rintro ⟨rfl, rfl⟩
      exact hnot ⟨p.2, List.mem_cons_self, rfl⟩

theorem source_lt {p : ℕ × ℕ} (hp : p ∈ (c.sources i).zipIdx) : p.1 ∈ c.sources i ∧ p.1 < i := by
  have hmem : p.1 ∈ c.sources i := List.mem_of_getElem? (List.mem_zipIdx_iff_getElem?.mp hp)
  exact ⟨hmem, c.earlier i p.1 hmem⟩

/-- Nothing outside of the levels up to an observer's is changed when it attaches or detaches. -/
theorem Turned.switched {on : Bool} {held : ℕ → Listener → Prop} (h : N.Turned c i N' held)
    (houter : ∀ j l, Outer (i + 1) l → (held j l ↔ l ∈ N.subs j))
    (hwired : ∀ k j, (c.sources i)[k]? = some j → (held j (.inner i k) ↔ on = true)) :
    N.Switched c i on { N' with attached := update N'.attached i on } where
  disposed := h.disposed
  registrations := h.registrations
  attached := by
    intro m hm
    have hm : i < m := hm
    exact (update_of_ne hm.ne' _ _).trans (h.attached m hm.le)
  subs := fun j hj => h.subs j (Nat.le_of_succ_le hj)
  outer := fun j l hl => (h.held j l (hl.mono (Nat.le_succ i))).trans (houter j l hl)
  stopped := h.stopped
  settled := by
    intro m hm
    have hkept : update N'.attached i on m = N'.attached m := update_of_ne hm.ne _ _
    refine ⟨(h.settled m hm).1.congr (fun _ _ => Iff.rfl) hkept, fun hd => ?_⟩
    show update N'.attached i on m = true ↔ _
    rw [hkept]
    exact (h.settled m hm).2 hd
  wired := by
    intro k j hj
    show _ ↔ update N'.attached i on i = true
    rw [update_self, h.held j _ (outer_inner i k)]
    exact hwired k j hj
  own := h.subs i (Nat.le_refl i)
  switched := fun _ => update_self _ _ _

theorem attach_switched (fuel : ℕ) (hi : i < fuel) (hs : N.Settled c i) (hw : N.Wired c i)
    (halive : N.Alive c i) : N.Switched c i true (attach c fuel i N) := by
  induction fuel generalizing i N with
  | zero => exact absurd hi (Nat.not_lt_zero i)
  | succ fuel ih =>
    unfold attach
    split
    · next h =>
      exact ⟨⟨rfl, rfl, fun _ _ => rfl, fun _ _ => rfl, fun _ _ _ => Iff.rfl, fun _ _ => List.Subset.refl _⟩,
        hs, hw, rfl,
        fun hd => h.resolve_left hd⟩
    · have hsources := attach_sources fuel (c.sources i).zipIdx hs
        (fun p hp => ⟨(source_lt hp).2, halive.source (source_lt hp).1⟩)
        fun s hlt N₁ => ih (Nat.lt_of_lt_of_le hlt (Nat.le_of_lt_succ hi))
      refine hsources.switched (fun j l hl => or_iff_left ?_) fun k j hj => ?_
      · rintro ⟨k, -, rfl⟩
        exact absurd (hl i k rfl) (Nat.not_succ_le_self i)
      · exact iff_of_true (Or.inr ⟨k, List.mem_zipIdx_iff_getElem?.mpr hj, rfl⟩) rfl

theorem detach_switched (fuel : ℕ) (hi : i < fuel) (hs : N.Settled c i) (hw : N.Wired c i) :
    N.Switched c i false (detach c fuel i N) := by
  induction fuel generalizing i N with
  | zero => exact absurd hi (Nat.not_lt_zero i)
  | succ fuel ih =>
    unfold detach
    split
    · have hsources := detach_sources fuel (c.sources i).zipIdx hs
        (fun p hp => (source_lt hp).2)
        fun s hlt N₁ => ih (Nat.lt_of_lt_of_le hlt (Nat.le_of_lt_succ hi))
      refine hsources.switched (fun j l hl => and_iff_left ?_) fun k j hj => ?_
      · rintro ⟨k, -, rfl⟩
        exact absurd (hl i k rfl) (Nat.not_succ_le_self i)
      · refine iff_of_false (fun h => h.2 ⟨k, List.mem_zipIdx_iff_getElem?.mpr hj, rfl⟩)
          Bool.false_ne_true
    · next h =>
      exact ⟨⟨rfl, rfl, fun _ _ => rfl, fun _ _ => rfl, fun _ _ _ => Iff.rfl, fun _ _ => List.Subset.refl _⟩,
        hs, hw, rfl,
        fun _ => Bool.eq_false_iff.mpr h⟩

/-! ## Steps -/

theorem outer_user (b fn : ℕ) : Outer b (.user fn) := fun _ _ h => nomatch h

/-- What attaches nothing and tells no other observer leaves the levels as they are. -/
theorem Settled.congr (h : N.Settled c b)
    (hheld : ∀ m k j, .inner m k ∈ N'.subs j ↔ .inner m k ∈ N.subs j)
    (hattached : N'.attached = N.attached)
    (hsubs : ∀ m, c.sources m ≠ [] → (N'.subs m ≠ [] ↔ N.subs m ≠ [])) : N'.Settled c b := by
  intro m hm
  refine ⟨(h m hm).1.congr (hheld m) (congrFun hattached m), fun hd => ?_⟩
  rw [hattached, hsubs m hd]
  exact (h m hm).2 hd

theorem Sound.new : Sound c {} where
  settled := fun _ _ _ => ⟨fun _ _ _ => iff_of_false List.not_mem_nil Bool.false_ne_true,
    fun _ => iff_of_false Bool.false_ne_true fun h => h rfl⟩
  told := fun _ h => nomatch h
  gone := fun _ h => nomatch h

/-- One user's listener has come or gone, below any level. -/
theorem Turned.sound {held : ℕ → Listener → Prop} (hs : N.Sound c)
    (h : ∀ b, i < b → N.Turned c b N' held)
    (htold : ∀ reg ∈ N.registrations, c.sources reg.observer ≠ [] → reg.Live →
      held reg.observer (.user reg.fn)) : N'.Sound c where
  settled := by
    intro b
    exact (h (max b (i + 1)) (Nat.lt_of_succ_le (Nat.le_max_right ..))).settled.mono
      (Nat.le_max_left ..)
  told := by
    intro reg hreg hd hlive
    have h := h (i + 1) (Nat.lt_succ_self i)
    rw [h.registrations] at hreg
    exact (h.held _ _ (outer_user _ _)).mpr (htold reg hreg hd hlive)
  gone := by
    intro j hj
    have h := h (i + 1) (Nat.lt_succ_self i)
    rw [h.disposed] at hj
    refine List.eq_nil_iff_forall_not_mem.mpr fun l hl => ?_
    have hl := h.stopped j hj hl
    rw [hs.gone j hj] at hl
    exact List.not_mem_nil hl

theorem Sound.register (hs : N.Sound c) (reg : Registration)
    (h : c.sources reg.observer ≠ [] → reg.Live → .user reg.fn ∈ N.subs reg.observer) :
    ({ N with registrations := N.registrations ++ [reg] } : Network).Sound c where
  settled := hs.settled
  told := by
    intro reg' hreg' hd hlive
    rcases List.mem_append.mp hreg' with hreg' | hreg'
    · exact hs.told reg' hreg' hd hlive
    · obtain rfl := List.mem_singleton.mp hreg'
      exact h hd hlive
  gone := hs.gone

theorem Sound.add_plain (hs : N.Sound c) (hi : c.sources i = []) (fn : ℕ) :
    (N.add i (.user fn)).Sound c := by
  by_cases hdisposed : N.disposed i = true
  · have hsame : N.add i (.user fn) = N := by
      unfold add
      rw [if_pos (Or.inl hdisposed)]
    rw [hsame]
    exact hs
  · have hdisposed : N.disposed i = false := Bool.eq_false_iff.mpr hdisposed
    refine ⟨fun b => (hs.settled b).congr (fun m k j => ?_) add_attached fun m hd => ?_,
      fun reg hreg hd hlive => ?_, fun j hj => ?_⟩
    · rw [mem_add hdisposed]
      exact or_iff_left fun h => nomatch h.2
    · rw [add_subs_of_ne]
      rintro rfl
      exact hd hi
    · rw [add_registrations] at hreg
      exact (mem_add hdisposed _ _).mpr (Or.inl (hs.told reg hreg hd hlive))
    · rw [add_disposed] at hj
      rw [add_of_disposed hj]
      exact hs.gone j hj

theorem attach_plain (hi : c.sources i = []) : attach c (i + 1) i N = N := by
  unfold attach
  rw [if_pos (Or.inl hi)]

theorem Sound.subscribe (hs : N.Sound c) {fn : ℕ} {isFunction : Bool}
    (h : N.Careful c (.subscribe i fn isFunction)) : (N.subscribe c i fn isFunction).Sound c := by
  unfold Network.subscribe
  dsimp only
  by_cases hi : c.sources i = []
  · rw [attach_plain hi]
    split
    · exact hs
    · exact (hs.add_plain hi fn).register _ fun hd => absurd hi hd
  · obtain ⟨hfunction, halive⟩ := h hi
    have hattach := attach_switched (i + 1) (Nat.lt_succ_self i) (hs.settled i)
      (hs.settled (i + 1) i (Nat.lt_succ_self i)).1 halive
    have halive' : (attach c (i + 1) i N).disposed i = false :=
      (congrFun hattach.disposed i).trans halive.self
    split
    · next hnot =>
      -- it throws, having attached nothing
      have hsome := hfunction.resolve_left (by rw [hnot.2]; exact Bool.false_ne_true)
      have hon := ((hs.settled (i + 1) i (Nat.lt_succ_self i)).2 hi).mpr hsome
      have hsame : attach c (i + 1) i N = N := by
        unfold attach
        rw [if_pos (Or.inr hon)]
      rw [hsame]
      exact hs
    · refine Sound.register ?_ _ fun _ _ => (mem_add halive' i _).mpr (Or.inr ⟨rfl, rfl⟩)
      refine Turned.sound (i := i) hs (fun b hb => hattach.turned_add (hs.settled b) hb
        (outer_user b fn) halive.self) fun reg hreg hd hlive => Or.inl (hs.told reg hreg hd hlive)

theorem Sound.unsubscribe (hs : N.Sound c) {r : ℕ} (h : N.Careful c (.unsubscribe r)) :
    (N.unsubscribe c r).Sound c := by
  unfold Network.unsubscribe
  split
  · exact hs
  · next reg hreg =>
    split
    · exact hs
    · next hdone =>
      dsimp only
      have hset : ∀ reg' ∈ N.registrations.set r { reg with done := true },
          c.sources reg'.observer ≠ [] → reg'.Live → .user reg'.fn ∈ N.subs reg'.observer ∧
          ¬ (reg'.observer = reg.observer ∧ Listener.user reg'.fn = .user reg.fn) := by
        intro reg' hreg' hd hlive
        obtain ⟨r', hr'⟩ := List.mem_iff_getElem?.mp hreg'
        by_cases hne : r' = r
        · subst hne
          rw [List.getElem?_set_self (List.getElem?_eq_some_iff.mp hreg).1] at hr'
          obtain rfl := Option.some.inj hr'
          exact nomatch hlive.1
        · rw [List.getElem?_set_ne (Ne.symm hne)] at hr'
          refine ⟨hs.told reg' (List.mem_of_getElem? hr') hd hlive, fun ⟨hobserver, hfn⟩ => ?_⟩
          rw [hobserver] at hd
          have hundone : reg.done = false := Bool.eq_false_iff.mpr fun h => hdone ⟨hd, h⟩
          exact h reg hreg hd hundone r' reg' hr' hne hlive hobserver (Listener.user.inj hfn)
      have hN : ({ N with registrations := N.registrations.set r { reg with done := true } } :
          Network).Sound c :=
        ⟨hs.settled, fun reg' hreg' hd hlive => (hset reg' hreg' hd hlive).1, hs.gone⟩
      exact Turned.sound (i := reg.observer) hN
        (fun b hb => turned_delete (hN.settled b) hb (outer_user b reg.fn) fun N₁ hs₁ hw₁ =>
          detach_switched _ (Nat.lt_succ_self _) hs₁ hw₁) hset

theorem clear_sound (disposed : ℕ → Bool) (hwired : ∀ m, N.Wired c m)
    (hneeded : ∀ m ≠ i, c.sources m ≠ [] → (N.attached m = true ↔ N.subs m ≠ []))
    (hoff : c.sources i ≠ [] → N.attached i = false) (hunneeded : N.Unneeded i)
    (htold : ∀ reg ∈ N.registrations, c.sources reg.observer ≠ [] → reg.Live →
      .user reg.fn ∈ N.subs reg.observer)
    (hgone : ∀ j ≠ i, disposed j = true → N.subs j = []) :
    ({ N.clear i with disposed } : Network).Sound c where
  settled := by
    intro b m _
    refine ⟨fun k j hj => ?_, fun hd => ?_⟩
    · refine Iff.trans ?_ (hwired m k j hj)
      by_cases hji : j = i
      · subst hji
        exact iff_of_false (by simp [Network.clear]) (hunneeded m k)
      · show _ ∈ update N.subs i [] j ↔ _
        rw [update_of_ne hji]
    · by_cases hmi : m = i
      · subst hmi
        exact iff_of_false (fun hon => absurd ((hoff hd).symm.trans hon) Bool.false_ne_true)
          (by simp [Network.clear])
      · show _ ↔ update N.subs i [] m ≠ []
        rw [update_of_ne hmi]
        exact hneeded m hmi hd
  told := by
    intro reg hreg hd hlive
    obtain ⟨reg', hreg', rfl⟩ := List.mem_map.mp hreg
    by_cases hi : reg'.observer = i
    · rw [if_pos hi] at hlive
      exact nomatch hlive.2
    · rw [if_neg hi] at hd hlive ⊢
      show _ ∈ update N.subs i [] reg'.observer
      rw [update_of_ne hi]
      exact htold reg' hreg' hd hlive
  gone := by
    intro j hj
    show update N.subs i [] j = []
    by_cases hji : j = i
    · subst hji
      exact update_self _ _ _
    · rw [update_of_ne hji]
      exact hgone j hji hj

section
variable (hs : N.Sound c)
include hs

theorem Sound.wired (m : ℕ) : N.Wired c m :=
  (hs.settled (m + 1) m (Nat.lt_succ_self m)).1

theorem Sound.needed {m : ℕ} (hd : c.sources m ≠ []) :
    N.attached m = true ↔ N.subs m ≠ [] := (hs.settled (m + 1) m (Nat.lt_succ_self m)).2 hd

theorem Sound.clear (h : N.Careful c (.clear i)) : (N.clear i).Sound c := by
  have hunneeded : N.Unneeded i := by
    by_cases hi : c.sources i = []
    · rw [Careful, if_pos hi] at h
      exact h
    · rw [Careful, if_neg hi] at h
      intro m k
      rw [h]
      exact List.not_mem_nil
  refine clear_sound N.disposed hs.wired (fun m _ hd => hs.needed hd) (fun hd => ?_)
    hunneeded hs.told fun j _ hj => hs.gone j hj
  rw [Careful, if_neg hd] at h
  refine Bool.eq_false_iff.mpr fun hon => ?_
  exact (hs.needed hd).mp hon h

theorem Sound.dispose (h : N.Careful c (.dispose i)) : (N.dispose c i).Sound c := by
  unfold Network.dispose
  dsimp only
  have hdetach := detach_switched (i + 1) (Nat.lt_succ_self i) (hs.settled i) (hs.wired i)
  generalize detach c (i + 1) i N = N' at hdetach
  have hwired : ∀ m, N'.Wired c m := by
    intro m
    rcases Nat.lt_trichotomy m i with hmi | rfl | hmi
    · exact (hdetach.settled m hmi).1
    · exact hdetach.wired
    · refine (hs.wired m).congr (fun k j => hdetach.outer j _ ?_) (hdetach.attached m hmi)
      exact (outer_inner m k).mono hmi
  have hneeded : ∀ m ≠ i, c.sources m ≠ [] → (N'.attached m = true ↔ N'.subs m ≠ []) := by
    intro m hm hd
    rcases Nat.lt_or_gt_of_ne hm with hmi | hmi
    · exact (hdetach.settled m hmi).2 hd
    · rw [hdetach.attached m hmi, hdetach.subs m hmi]
      exact hs.needed hd
  have htold : ∀ reg ∈ N'.registrations, c.sources reg.observer ≠ [] → reg.Live →
      .user reg.fn ∈ N'.subs reg.observer := by
    intro reg hreg hd hlive
    rw [hdetach.registrations] at hreg
    exact (hdetach.outer _ _ (outer_user _ _)).mpr (hs.told reg hreg hd hlive)
  have hgone : ∀ j, N'.disposed j = true → N'.subs j = [] := by
    intro j hj
    rw [hdetach.disposed] at hj
    have hfewer := hdetach.stopped j hj
    rw [hs.gone j hj] at hfewer
    exact List.subset_nil.mp hfewer
  split
  · next hdisposed =>
    refine ⟨fun b m _ => ⟨hwired m, fun hd => ?_⟩, htold, hgone⟩
    by_cases hm : m = i
    · subst hm
      rw [hdetach.switched hd, hgone m hdisposed]
      exact iff_of_false Bool.false_ne_true fun h => h rfl
    · exact hneeded m hm hd
  · refine clear_sound _ hwired hneeded hdetach.switched ?_ htold fun j hj hdisposed => ?_
    · intro m k
      rw [hdetach.own]
      exact h m k
    · rw [update_of_ne hj] at hdisposed
      exact hgone j hdisposed

theorem Sound.step (e : Event) (h : N.Careful c e) : (N.step c e).Sound c := by
  cases e with
  | subscribe i fn isFunction => exact hs.subscribe h
  | unsubscribe r => exact hs.unsubscribe h
  | clear i => exact hs.clear h
  | dispose i => exact hs.dispose h

theorem Sound.lazy : N.Lazy c where
  subscribed := by
    intro i k j hj
    have hd : c.sources i ≠ [] := List.ne_nil_of_mem (List.mem_of_getElem? hj)
    exact (hs.wired i k j hj).trans (hs.needed hd)
  told := hs.told

end

end

end Network

/-- In every run in which only what is a function is subscribed to an observer that is not
attached, nothing upstream of which is disposed, no observer is cleared or disposed that others
need, and no function is unsubscribed that another registration has subscribed as well, each
observer is subscribed to each of its sources exactly when it has subscribers, and no
registration loses its subscription with another. -/
theorem derived_lazy (c : Chain) (es : List Event) (h : Meets (Network.step c) (Network.Careful c) {} es) :
    Always (Network.step c) (Network.Lazy c) {} es := by
  have hstep : ∀ (N : Network) (e : Event), N.Sound c → N.Careful c e → (N.step c e).Sound c :=
    fun _ e hs he => hs.step e he
  exact (always_of_meets hstep Network.Sound.new h).mono fun _ hs => hs.lazy

/-- An observer derived from a plain one, and one combined from both. -/
def doubled : Chain where
  sources := fun i => if i = 1 then [0] else if i = 2 then [0, 1] else []
  earlier := by
    intro i j hj
    split at hj
    · obtain rfl := List.mem_singleton.mp hj
      omega
    · split at hj
      · simp only [List.mem_cons, List.not_mem_nil, or_false] at hj
        omega
      · cases hj

/-- The combined observer is subscribed to and unsubscribed from. -/
theorem derived_lazy_combined :
    Always (Network.step doubled) (Network.Lazy doubled) {}
      [.subscribe 2 0 true, .subscribe 2 1 true, .unsubscribe 0, .unsubscribe 1, .dispose 2] := by
  refine derived_lazy doubled _ ⟨?_, ?_, ?_, ?_, fun _ _ => List.not_mem_nil, trivial⟩
  · exact fun _ => ⟨Or.inl rfl, fun _ _ => rfl⟩
  · exact fun _ => ⟨Or.inl rfl, fun _ _ => rfl⟩
  · intro reg hreg _ _ r' reg' hr' hne _ _
    obtain rfl := Option.some.inj hreg
    match r', hr', hne with
    | 0, _, hne => exact absurd rfl hne
    | 1, hr', _ =>
      obtain rfl := Option.some.inj hr'
      decide
  · intro reg hreg _ _ r' reg' hr' hne hlive _
    obtain rfl := Option.some.inj hreg
    match r', hr', hne with
    | 0, hr', _ =>
      obtain rfl := Option.some.inj hr'
      exact nomatch hlive.1
    | 1, _, hne => exact absurd rfl hne

/-- An observer that is cleared stays subscribed to its source. -/
theorem clear_stays_attached :
    ¬ Always (Network.step doubled) (Network.Lazy doubled) {} [.subscribe 1 0 true, .clear 1] := by
  intro h
  have hlazy := (h.last.subscribed 1 0 0 rfl).mp (by decide)
  exact hlazy rfl

end PerformanceHelpers.PowerObserver.Derived
