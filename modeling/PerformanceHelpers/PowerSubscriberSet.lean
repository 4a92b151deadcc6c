import PerformanceHelpers.Run

/- `PowerSubscriberSet` (`src/helpers/powerSubscriberSet.js`), without `weak`.

   The set of listeners is the list of all that were ever put in, in order, where one that is taken
   out leaves its slot empty: a dispatch that is under way keeps its place in that list, and finds
   what is appended behind it. A dispatch is `forEach` with a callback that calls the listener. The
   code of a subscriber is whatever comes before the dispatch that called it goes on, so that a
   subscriber may register, unsubscribe and emit (`Frame`).

   A registration is the call of `add` or `addOnce` that made it. The set knows functions and not
   registrations: a function that is added twice has one entry, `_onceMap` remembers the last wrapper
   of a function, and every unsubscribe function of a function deletes the same. Registrations are
   independent of each other as long as this makes no difference (`Separate`). -/
namespace PerformanceHelpers.PowerSubscriberSet

/-- What the set stores: a function, or the wrapper an `addOnce` made for it. -/
inductive Listener (F : Type) where
  | fn (f : F)
  | wrapper (id : ℕ) (f : F)
  deriving DecidableEq

/-- A place in the set, with the registration it was filled by. -/
structure Slot (F : Type) where
  listener : Listener F
  reg : ℕ
  live : Bool
  deriving DecidableEq

structure Registration (F : Type) where
  fn : F
  once : Bool
  deriving DecidableEq

/-- A dispatch that is under way: its number, its place in the set, and the registrations that stood
when it began. -/
structure Frame where
  emit : ℕ
  cursor : ℕ
  started : List ℕ
  deriving DecidableEq

/-- A dispatch that is over, with the registrations that stood when it began and when it ended. -/
structure Ended where
  emit : ℕ
  started : List ℕ
  standing : List ℕ
  deriving DecidableEq

/-- The fields of the set, with the dispatches that are under way, the innermost first, and what has
happened: every registration, those that stand (made, and neither unsubscribed nor used up), and
every call with the dispatch that made it. -/
structure Subscribers (F : Type) where
  maxListeners : ℕ
  slots : List (Slot F)
  onceMap : F → Option ℕ
  frames : List Frame
  regs : List (Registration F)
  active : List ℕ
  emits : ℕ
  calls : List (ℕ × ℕ)
  ended : List Ended

section
variable {F : Type} [DecidableEq F]

def new (maxListeners : ℕ) : Subscribers F := ⟨maxListeners, [], fun _ => none, [], [], [], 0, [], []⟩

def registered (slots : List (Slot F)) : List ℕ := (slots.filter Slot.live).map Slot.reg

def size (s : Subscribers F) : ℕ := (s.slots.filter Slot.live).length

/-- `Set.add`: a listener that is there stays where it is. -/
def setAdd (slots : List (Slot F)) (listener : Listener F) (reg : ℕ) : List (Slot F) :=
  if slots.any fun slot => slot.live && decide (slot.listener = listener) then slots
  else slots ++ [⟨listener, reg, true⟩]

/-- `Set.delete`. -/
def setDelete (slots : List (Slot F)) (listener : Listener F) : List (Slot F) :=
  slots.map fun slot =>
    if slot.live = true ∧ slot.listener = listener then { slot with live := false } else slot

/-- `maxListeners` has been reached. -/
def Full (s : Subscribers F) : Prop := 0 < s.maxListeners ∧ s.maxListeners < size s + 1

instance (s : Subscribers F) : Decidable (Full s) := inferInstanceAs (Decidable (_ ∧ _))

/-- A registration is made; its number stands for the unsubscribe function. -/
def register (s : Subscribers F) (f : F) (once : Bool) : Subscribers F :=
  { s with regs := s.regs ++ [⟨f, once⟩], active := s.active ++ [s.regs.length] }

/-- `add`; `none` is the error of a full set. -/
def add (s : Subscribers F) (f : F) : Subscribers F × Option ℕ :=
  if Full s then (s, none)
  else ({ register s f false with slots := setAdd s.slots (.fn f) s.regs.length }, some s.regs.length)

def addOnce (s : Subscribers F) (f : F) : Subscribers F × Option ℕ :=
  if Full s then (s, none)
  else
    ({ register s f true with
        onceMap := Function.update s.onceMap f (some s.regs.length)
        slots := setAdd s.slots (.wrapper s.regs.length f) s.regs.length }, some s.regs.length)

/-- `delete`: the wrapper that is remembered for the function, or the function. -/
def delete (s : Subscribers F) (f : F) : Subscribers F :=
  match s.onceMap f with
  | some w =>
    { s with onceMap := Function.update s.onceMap f none, slots := setDelete s.slots (.wrapper w f) }
  | none => { s with slots := setDelete s.slots (.fn f) }

/-- The registration `r` does not stand any more. -/
def retire (s : Subscribers F) (r : ℕ) : Subscribers F :=
  { s with active := s.active.filter fun r' => !decide (r' = r) }

/-- The unsubscribe function of the registration `r`. -/
def unsubscribe (s : Subscribers F) (r : ℕ) : Subscribers F :=
  match s.regs[r]? with
  | none => s
  | some g => retire (delete s g.fn) r

def emit (s : Subscribers F) : Subscribers F :=
  { s with frames := ⟨s.emits, 0, s.active⟩ :: s.frames, emits := s.emits + 1 }

/-- The innermost dispatch goes on: it calls the next listener that is there, or ends. A wrapper
deletes its function before it calls it. -/
def next (s : Subscribers F) : Subscribers F :=
  match s.frames with
  | [] => s
  | frame :: outer =>
    match (s.slots.drop frame.cursor).findIdx? Slot.live with
    | none =>
      { s with frames := outer, ended := s.ended ++ [⟨frame.emit, frame.started, s.active⟩] }
    | some j =>
      match s.slots[frame.cursor + j]? with
      | none => s
      | some slot =>
        let called := { s with
          frames := { frame with cursor := frame.cursor + j + 1 } :: outer
          calls := s.calls ++ [(frame.emit, slot.reg)] }
        match slot.listener with
        | .fn _ => called
        | .wrapper _ f => retire (delete called f) slot.reg

end

inductive Event (F : Type) where
  | add (f : F)
  | addOnce (f : F)
  | unsubscribe (r : ℕ)
  | emit
  | next
  deriving DecidableEq

section
variable {F : Type} [DecidableEq F]

def step (s : Subscribers F) : Event F → Subscribers F
  | .add f => (add s f).1
  | .addOnce f => (addOnce s f).1
  | .unsubscribe r => unsubscribe s r
  | .emit => emit s
  | .next => next s

/-- What it makes no difference to that the set knows functions only: a function is not added while
an `add` of it stands, nor added once while an `addOnce` of it stands; and an unsubscribe function is
not called while another registration of its function stands, unless it is that of an `addOnce` that
stands. -/
def Separate (s : Subscribers F) : Event F → Prop
  | .add f => ∀ r ∈ s.active, s.regs[r]? ≠ some ⟨f, false⟩
  | .addOnce f => ∀ r ∈ s.active, s.regs[r]? ≠ some ⟨f, true⟩
  | .unsubscribe r => ∀ g ∈ s.regs[r]?, ∀ r' ∈ s.active, ∀ g' ∈ s.regs[r']?, g'.fn = g.fn → r' ≠ r →
      g.once = true ∧ r ∈ s.active
  | _ => True

instance (s : Subscribers F) : ∀ e, Decidable (Separate s e)
  | .add f => inferInstanceAs (Decidable (∀ r ∈ s.active, _))
  | .addOnce f => inferInstanceAs (Decidable (∀ r ∈ s.active, _))
  | .unsubscribe r => inferInstanceAs (Decidable (∀ g ∈ s.regs[r]?, _))
  | .emit | .next => inferInstanceAs (Decidable True)

/-- Registrations stand on their own: what is in the set is what stands, an `addOnce` has been called
at most once, and a dispatch that is over has called a registration that stood when it began at most
once, and exactly once when it still stood at the end. -/
structure Independent (s : Subscribers F) : Prop where
  registered : registered s.slots = s.active
  once : ∀ r g, s.regs[r]? = some g → g.once = true → (s.calls.filter fun call => call.2 = r).length ≤ 1
  emits : ∀ d ∈ s.ended, ∀ r ∈ d.started,
    s.calls.count (d.emit, r) ≤ 1 ∧ (r ∈ d.standing → s.calls.count (d.emit, r) = 1)

/-- An unsubscribe function takes the registration that returned it out of the set, and no other. -/
def RemovesOwn (s : Subscribers F) (e : Event F) : Prop :=
  ∀ r < s.regs.length, e = .unsubscribe r →
    registered (step s e).slots = (registered s.slots).filter fun r' => !decide (r' = r)

/-! ## What is in the set -/

variable {s : Subscribers F} {slots slots' : List (Slot F)} {r : ℕ} {f : F}

def listenerOf (g : Registration F) (r : ℕ) : Listener F := if g.once = true then .wrapper r g.fn else .fn g.fn

/-- What is in the set is what stands, every entry is that of its registration, and `_onceMap` finds
the wrapper of the `addOnce` that stands. -/
structure Stores (s : Subscribers F) : Prop where
  standing : registered s.slots = s.active
  sorted : (s.slots.map Slot.reg).Pairwise (· < ·)
  known : ∀ slot ∈ s.slots, ∃ g, s.regs[slot.reg]? = some g ∧ slot.listener = listenerOf g slot.reg
  distinct : ∀ r ∈ s.active, ∀ r' ∈ s.active, s.regs[r]? = s.regs[r']? → r = r'
  onceMap : ∀ f w, s.onceMap f = some w ↔ w ∈ s.active ∧ s.regs[w]? = some ⟨f, true⟩

theorem mem_registered : r ∈ registered slots ↔ ∃ slot ∈ slots, slot.live = true ∧ slot.reg = r := by
  unfold registered
  simp [and_assoc]

variable {slot : Slot F} {s' : Subscribers F} {g : Registration F} {frame : Frame}

theorem Stores.mem_active (h : Stores s) (hs : slot ∈ s.slots) (hl : slot.live = true) :
    slot.reg ∈ s.active := by
  rw [← h.standing, mem_registered]
  exact ⟨slot, hs, hl, rfl⟩

structure Fades (slots slots' : List (Slot F)) : Prop where
  length : slots'.length = slots.length
  back : ∀ (i : ℕ) (slot' : Slot F), slots'[i]? = some slot' → ∃ slot : Slot F, slots[i]? = some slot ∧
    slot'.reg = slot.reg ∧ slot'.listener = slot.listener ∧ (slot'.live = true → slot.live = true)

theorem setDelete_fades (slots : List (Slot F)) (l : Listener F) : Fades slots (setDelete slots l) := by
  unfold setDelete
  refine ⟨List.length_map _, fun i slot' h => ?_⟩
  rw [List.getElem?_map] at h
  obtain ⟨slot, hslot, rfl⟩ := Option.map_eq_some_iff.mp h
  refine ⟨slot, hslot, ?_⟩
  split
  · next hgone => exact ⟨rfl, rfl, fun h => Bool.noConfusion h⟩
  · exact ⟨rfl, rfl, id⟩

theorem setDelete_regs (slots : List (Slot F)) (l : Listener F) :
    (setDelete slots l).map Slot.reg = slots.map Slot.reg := by
  unfold setDelete
  rw [List.map_map]
  refine List.map_congr_left fun slot _ => ?_
  simp only [Function.comp_apply]
  split <;> rfl

/-- Deleting the listener of one registration takes that registration out. -/
theorem registered_setDelete {l : Listener F}
    (h : ∀ slot ∈ slots, slot.live = true → (slot.listener = l ↔ slot.reg = r)) :
    registered (setDelete slots l) = (registered slots).filter fun r' => !decide (r' = r) := by
  induction slots with
  | nil => rfl
  | cons slot slots ih =>
    have hrest := ih fun slot' hs => h slot' (List.mem_cons_of_mem _ hs)
    have hcons : setDelete (slot :: slots) l =
        (if slot.live = true ∧ slot.listener = l then { slot with live := false } else slot) ::
          setDelete slots l := rfl
    unfold registered at hrest ⊢
    rw [hcons]
    by_cases hl : slot.live = true
    · have hiff := h slot List.mem_cons_self hl
      by_cases hm : slot.listener = l
      · have hr := hiff.mp hm
        rw [if_pos ⟨hl, hm⟩, List.filter_cons_of_neg (by simp), List.filter_cons_of_pos hl, List.map_cons,
          List.filter_cons_of_neg (by simp [hr]), hrest]
      · have hr : slot.reg ≠ r := fun heq => hm (hiff.mpr heq)
        rw [if_neg fun hboth => hm hboth.2, List.filter_cons_of_pos hl, List.filter_cons_of_pos hl,
          List.map_cons, List.map_cons, List.filter_cons_of_pos (by simpa using hr), hrest]
    · rw [if_neg fun hboth => hl hboth.1, List.filter_cons_of_neg hl, List.filter_cons_of_neg hl, hrest]

/-- Deleting what is not there. -/
theorem setDelete_absent {l : Listener F} (h : ∀ slot ∈ slots, slot.live = true → slot.listener ≠ l) :
    setDelete slots l = slots := by
  unfold setDelete
  conv_rhs => rw [← List.map_id slots]
  refine List.map_congr_left fun slot hs => ?_
  rw [if_neg fun hboth => h slot hs hboth.1 hboth.2]
  rfl

/-- What `delete` leaves of a state where the function of the registration `r` stands for `r` alone:
without `r` when it stands, and as it was when it does not. -/
structure Deletes (s : Subscribers F) (r : ℕ) (s' : Subscribers F) : Prop where
  fades : Fades s.slots s'.slots
  regs : s'.slots.map Slot.reg = s.slots.map Slot.reg
  registered : registered s'.slots = (registered s.slots).filter fun r' => !decide (r' = r)
  onceMap : ∀ f w, s'.onceMap f = some w ↔ s.onceMap f = some w ∧ w ≠ r
  same : s' = { s with slots := s'.slots, onceMap := s'.onceMap }

/-- An `addOnce` that stands is found through `_onceMap`. -/
theorem delete_once (h : Stores s) (hr : r ∈ s.active) (hg : s.regs[r]? = some ⟨f, true⟩) :
    Deletes s r (delete s f) := by
  have hmap : s.onceMap f = some r := (h.onceMap f r).mpr ⟨hr, hg⟩
  unfold delete
  rw [hmap]
  refine ⟨setDelete_fades _ _, setDelete_regs _ _, ?_, fun f' w => ?_, rfl⟩
  · apply registered_setDelete
    intro slot hs _
    obtain ⟨g, hknown, hlistener⟩ := h.known slot hs
    constructor
    · intro heq
      rw [hlistener] at heq
      unfold listenerOf at heq
      split at heq
      · exact (Listener.wrapper.inj heq).1
      · cases heq
    · intro heq
      rw [heq, hg] at hknown
      obtain rfl := Option.some.inj hknown
      rw [hlistener, heq]
      rfl
  · dsimp only
    by_cases hf : f' = f
    · subst hf
      rw [Function.update_self, hmap]
      exact iff_of_false (Option.some_ne_none w).symm fun hw => hw.2 (Option.some.inj hw.1).symm
    · rw [Function.update_of_ne hf]
      refine ⟨fun hw => ⟨hw, ?_⟩, fun hw => hw.1⟩
      rintro rfl
      have hboth := ((h.onceMap f' w).mp hw).2
      rw [hg] at hboth
      exact hf (by simpa using hboth.symm)

/-- A function whose only registration, if any stands, is `r`, made by `add` or not standing. -/
theorem delete_plain (h : Stores s) (hg : s.regs[r]? = some g)
    (halone : ∀ r' ∈ s.active, ∀ g' ∈ s.regs[r']?, g'.fn = g.fn → r' = r)
    (hplain : r ∈ s.active → g.once = false) : Deletes s r (delete s g.fn) := by
  have hmap : s.onceMap g.fn = none := by
    rw [Option.eq_none_iff_forall_not_mem]
    intro w hw
    obtain ⟨hactive, hreg⟩ := (h.onceMap g.fn w).mp hw
    obtain rfl := halone w hactive _ hreg rfl
    rw [hg] at hreg
    have honce := hplain hactive
    rw [Option.some.inj hreg] at honce
    exact Bool.noConfusion honce
  unfold delete
  rw [hmap]
  refine ⟨setDelete_fades _ _, setDelete_regs _ _, ?_, fun f' w => ?_, rfl⟩
  · by_cases hr : r ∈ s.active
    · apply registered_setDelete
      intro slot hs hl
      obtain ⟨g', hknown, hlistener⟩ := h.known slot hs
      constructor
      · intro heq
        refine halone slot.reg (h.mem_active hs hl) g' hknown ?_
        rw [hlistener] at heq
        unfold listenerOf at heq
        split at heq
        · cases heq
        · exact Listener.fn.inj heq
      · intro heq
        rw [heq, hg] at hknown
        obtain rfl := Option.some.inj hknown
        rw [hlistener]
        exact if_neg (by rw [hplain hr]; exact Bool.false_ne_true)
    · have habsent : setDelete s.slots (.fn g.fn) = s.slots := by
        apply setDelete_absent
        intro slot hs hl heq
        obtain ⟨g', hknown, hlistener⟩ := h.known slot hs
        have hactive := h.mem_active hs hl
        rw [hlistener] at heq
        unfold listenerOf at heq
        split at heq
        · cases heq
        · exact hr (halone slot.reg hactive g' hknown (Listener.fn.inj heq) ▸ hactive)
      rw [habsent, h.standing]
      refine (List.filter_eq_self.mpr fun r' hr' => ?_).symm
      have hne : r' ≠ r := fun heq => hr (heq ▸ hr')
      simpa using hne
  · refine ⟨fun hw => ⟨hw, ?_⟩, fun hw => hw.1⟩
    rintro rfl
    obtain ⟨hactive, hreg⟩ := (h.onceMap f' w).mp hw
    rw [hg] at hreg
    have honce := hplain hactive
    rw [Option.some.inj hreg] at honce
    exact Bool.noConfusion honce

theorem Stores.retire (h : Stores s) (hd : Deletes s r s') : Stores (retire s' r) := by
  have hregs : s'.regs = s.regs := by rw [hd.same]
  have hactive : s'.active = s.active := by rw [hd.same]
  have hmem : ∀ r', r' ∈ (PowerSubscriberSet.retire s' r).active ↔ r' ∈ s.active ∧ r' ≠ r := by
    intro r'
    show r' ∈ s'.active.filter _ ↔ _
    rw [hactive]
    simp
  refine ⟨?_, ?_, ?_, ?_, ?_⟩
  · show registered s'.slots = s'.active.filter _
    rw [hd.registered, h.standing, hactive]
  · show (s'.slots.map Slot.reg).Pairwise (· < ·)
    rw [hd.regs]
    exact h.sorted
  · intro slot' hs'
    show ∃ g, s'.regs[slot'.reg]? = some g ∧ _
    obtain ⟨i, hi⟩ := List.mem_iff_getElem?.mp hs'
    obtain ⟨slot, hslot, hreg, hlistener, -⟩ := hd.fades.back i slot' hi
    rw [hregs, hreg, hlistener]
    exact h.known slot (List.mem_of_getElem? hslot)
  · intro r₁ h₁ r₂ h₂ heq
    replace heq : s'.regs[r₁]? = s'.regs[r₂]? := heq
    rw [hregs] at heq
    exact h.distinct r₁ ((hmem r₁).mp h₁).1 r₂ ((hmem r₂).mp h₂).1 heq
  · intro f w
    show s'.onceMap f = some w ↔ _ ∧ s'.regs[w]? = _
    rw [hd.onceMap, h.onceMap, hmem, hregs]
    tauto

/-- The entry of a registration that is made is new, and comes last. -/
theorem Stores.register (once : Bool) (h : Stores s) (hok : ∀ r ∈ s.active, s.regs[r]? ≠ some ⟨f, once⟩) :
    setAdd s.slots (listenerOf ⟨f, once⟩ s.regs.length) s.regs.length =
      s.slots ++ [⟨listenerOf ⟨f, once⟩ s.regs.length, s.regs.length, true⟩] := by
  refine if_neg ?_
  rw [List.any_eq_true]
  rintro ⟨slot, hs, hboth⟩
  obtain ⟨hl, hlistener⟩ := Bool.and_eq_true_iff.mp hboth
  obtain ⟨g, hg, hknown⟩ := h.known slot hs
  rw [decide_eq_true_iff, hknown] at hlistener
  have hlt := (List.getElem?_eq_some_iff.mp hg).1
  refine hok slot.reg (h.mem_active hs hl) ?_
  rw [hg]
  unfold listenerOf at hlistener
  cases once with
  | true =>
    split at hlistener
    · have hid := (Listener.wrapper.inj hlistener).1
      omega
    · cases hlistener
  | false =>
    split at hlistener
    · cases hlistener
    · next honce =>
      obtain ⟨fn, once'⟩ := g
      obtain rfl : fn = f := Listener.fn.inj hlistener
      have hfalse : once' = false := Bool.eq_false_iff.mpr honce
      rw [hfalse]

structure Registers (s : Subscribers F) (g : Registration F) (s' : Subscribers F) : Prop where
  slots : s'.slots = s.slots ++ [⟨listenerOf g s.regs.length, s.regs.length, true⟩]
  regs : s'.regs = s.regs ++ [g]
  active : s'.active = s.active ++ [s.regs.length]
  onceMap : s'.onceMap = if g.once = true then Function.update s.onceMap g.fn (some s.regs.length) else s.onceMap
  same : s' = { s with slots := s'.slots, regs := s'.regs, active := s'.active, onceMap := s'.onceMap }

section
variable (h : Stores s)
include h

theorem Stores.reg_lt (hs : slot ∈ s.slots) : slot.reg < s.regs.length := by
  obtain ⟨g, hg, -⟩ := h.known slot hs
  exact (List.getElem?_eq_some_iff.mp hg).1

theorem Stores.active_lt (hr : r ∈ s.active) : r < s.regs.length := by
  rw [← h.standing, mem_registered] at hr
  obtain ⟨slot, hs, -, rfl⟩ := hr
  exact h.reg_lt hs

theorem Stores.registers (hr : Registers s g s')
    (hok : ∀ r ∈ s.active, s.regs[r]? ≠ some g) : Stores s' := by
  have hold : ∀ r < s.regs.length, s'.regs[r]? = s.regs[r]? := by
    intro r hlt
    rw [hr.regs, List.getElem?_append_left hlt]
  have hnew : s'.regs[s.regs.length]? = some g := by
    rw [hr.regs, List.getElem?_append_right (Nat.le_refl _), Nat.sub_self]
    rfl
  have hcases : ∀ r ∈ s'.active, r ∈ s.active ∨ r = s.regs.length := by
    intro r hmem
    rw [hr.active] at hmem
    simpa using hmem
  refine ⟨?_, ?_, ?_, ?_, ?_⟩
  · rw [hr.slots, hr.active, ← h.standing]
    unfold registered
    rw [List.filter_append, List.map_append]
    rfl
  · rw [hr.slots, List.map_append]
    refine List.pairwise_append.mpr ⟨h.sorted, List.pairwise_singleton _ _, ?_⟩
    intro a ha b hb
    obtain ⟨slot, hs, rfl⟩ := List.mem_map.mp ha
    obtain rfl := List.mem_singleton.mp hb
    exact h.reg_lt hs
  · intro slot hs
    rw [hr.slots] at hs
    rcases List.mem_append.mp hs with hs | hs
    · rw [hold _ (h.reg_lt hs)]
      exact h.known slot hs
    · obtain rfl := List.mem_singleton.mp hs
      exact ⟨g, hnew, rfl⟩
  · intro r₁ h₁ r₂ h₂ heq
    rcases hcases r₁ h₁ with h₁ | rfl
    · rcases hcases r₂ h₂ with h₂ | rfl
      · rw [hold _ (h.active_lt h₁), hold _ (h.active_lt h₂)] at heq
        exact h.distinct r₁ h₁ r₂ h₂ heq
      · rw [hold _ (h.active_lt h₁), hnew] at heq
        exact absurd heq (hok r₁ h₁)
    · rcases hcases r₂ h₂ with h₂ | rfl
      · rw [hold _ (h.active_lt h₂), hnew] at heq
        exact absurd heq.symm (hok r₂ h₂)
      · rfl
  · intro f' w
    have hmem : w ∈ s'.active ↔ w ∈ s.active ∨ w = s.regs.length := by
      rw [hr.active]
      simp
    by_cases hw : w = s.regs.length
    · subst hw
      have hfresh : s.regs.length ∉ s.active := fun hmem => Nat.lt_irrefl _ (h.active_lt hmem)
      have hnone : s.onceMap f' ≠ some s.regs.length := fun heq => hfresh ((h.onceMap _ _).mp heq).1
      rw [hr.onceMap, hmem, hnew]
      obtain ⟨fn, once⟩ := g
      cases once with
      | true =>
        by_cases hf : f' = fn
        · simp [hf]
        · simp [Function.update_of_ne hf, hnone, Ne.symm hf]
      | false => simp [hnone]
    · have hmap : s'.onceMap f' = some w ↔ s.onceMap f' = some w := by
        rw [hr.onceMap]
        split
        · next honce =>
          by_cases hf : f' = g.fn
          · subst hf
            rw [Function.update_self]
            refine iff_of_false (fun heq => hw (Option.some.inj heq).symm) fun heq => ?_
            obtain ⟨hactive, hreg⟩ := (h.onceMap _ _).mp heq
            refine hok w hactive ?_
            rw [hreg, ← honce]
          · rw [Function.update_of_ne hf]
        · exact Iff.rfl
      rw [hmap, h.onceMap, hmem, or_iff_left hw]
      refine and_congr_right fun hactive => ?_
      rw [hold _ (h.active_lt hactive)]

theorem add_registers (hok : Separate s (.add f)) (hroom : ¬Full s) :
    Registers s ⟨f, false⟩ (add s f).1 := by
  unfold add
  rw [if_neg hroom]
  exact ⟨Stores.register false h hok, rfl, rfl, rfl, rfl⟩

theorem addOnce_registers (hok : Separate s (.addOnce f)) (hroom : ¬Full s) :
    Registers s ⟨f, true⟩ (addOnce s f).1 := by
  unfold addOnce
  rw [if_neg hroom]
  exact ⟨Stores.register true h hok, rfl, rfl, rfl, rfl⟩

/-- An unsubscribe function finds the entry of its own registration. -/
theorem unsubscribe_deletes (hg : s.regs[r]? = some g)
    (hok : Separate s (.unsubscribe r)) : Deletes s r (delete s g.fn) := by
  by_cases hactive : r ∈ s.active ∧ g.once = true
  · obtain ⟨fn, once⟩ := g
    obtain rfl : once = true := hactive.2
    exact delete_once h hactive.1 hg
  · refine delete_plain h hg ?_ ?_
    · intro r' hr' g' hg' hfn
      by_contra hne
      have hboth := hok g (by rw [hg]; rfl) r' hr' g' hg' hfn hne
      exact hactive ⟨hboth.2, hboth.1⟩
    · intro hr
      rw [Bool.eq_false_iff]
      exact fun honce => hactive ⟨hr, honce⟩

end

/-! ## What has been called -/

/-- A dispatch has called no entry at or after its place, every entry before its place that is still
there, and none twice. -/
structure Runs (s : Subscribers F) (frame : Frame) : Prop where
  emit : frame.emit < s.emits
  cursor : frame.cursor ≤ s.slots.length
  ahead : ∀ (i : ℕ) (slot : Slot F), s.slots[i]? = some slot → frame.cursor ≤ i →
    s.calls.count (frame.emit, slot.reg) = 0
  passed : ∀ (i : ℕ) (slot : Slot F), s.slots[i]? = some slot → i < frame.cursor → slot.live = true →
    s.calls.count (frame.emit, slot.reg) = 1
  atMost : ∀ slot ∈ s.slots, s.calls.count (frame.emit, slot.reg) ≤ 1
  started : ∀ r ∈ frame.started, ∃ slot ∈ s.slots, slot.reg = r

def Called (s : Subscribers F) (d : Ended) : Prop :=
  ∀ r ∈ d.started, s.calls.count (d.emit, r) ≤ 1 ∧ (r ∈ d.standing → s.calls.count (d.emit, r) = 1)

structure Calls (s : Subscribers F) : Prop where
  known : ∀ call ∈ s.calls, call.1 < s.emits ∧ call.2 < s.regs.length
  unused : ∀ r ∈ s.active, ∀ g ∈ s.regs[r]?, g.once = true → ∀ e, (e, r) ∉ s.calls
  once : ∀ r, ∀ g ∈ s.regs[r]?, g.once = true → (s.calls.filter fun call => call.2 = r).length ≤ 1
  frames : ∀ frame ∈ s.frames, Runs s frame
  ids : (s.frames.map Frame.emit ++ s.ended.map Ended.emit).Nodup
  finished : ∀ d ∈ s.ended, d.emit < s.emits ∧ Called s d

structure Inv (s : Subscribers F) : Prop where
  stores : Stores s
  calls : Calls s

theorem count_of_fresh {calls : List (ℕ × ℕ)} {e : ℕ} (h : ∀ call ∈ calls, call.1 ≠ e ∨ call.2 ≠ r) :
    calls.count (e, r) = 0 := by
  rw [List.count_eq_zero]
  intro hmem
  rcases h _ hmem with hne | hne <;> exact hne rfl

theorem Calls.registers (h : Calls s) (hr : Registers s g s') :
    Calls s' := by
  have hcalls : s'.calls = s.calls := by rw [hr.same]
  have hemits : s'.emits = s.emits := by rw [hr.same]
  have hframes : s'.frames = s.frames := by rw [hr.same]
  have hended : s'.ended = s.ended := by rw [hr.same]
  have hreg : ∀ r, ∀ g' ∈ s'.regs[r]?, g' ∈ s.regs[r]? ∨ r = s.regs.length := by
    intro r g' hg'
    rw [hr.regs] at hg'
    by_cases hlt : r < s.regs.length
    · rw [List.getElem?_append_left hlt] at hg'
      exact Or.inl hg'
    · have hlt' := (List.getElem?_eq_some_iff.mp hg').1
      rw [List.length_append, List.length_singleton] at hlt'
      exact Or.inr (by omega)
  have hfresh : ∀ e, (e, s.regs.length) ∉ s.calls := fun e hmem => Nat.lt_irrefl _ (h.known _ hmem).2
  refine ⟨?_, ?_, ?_, ?_, ?_, ?_⟩
  · intro call hmem
    rw [hcalls] at hmem
    rw [hemits, hr.regs, List.length_append]
    exact ⟨(h.known call hmem).1, Nat.lt_of_lt_of_le (h.known call hmem).2 (Nat.le_add_right _ _)⟩
  · intro r hactive g' hg' honce e
    rw [hcalls]
    by_cases hn : r = s.regs.length
    · rw [hn]
      exact hfresh e
    · have hold : r ∈ s.active := by
        rw [hr.active] at hactive
        rcases List.mem_append.mp hactive with h' | h'
        · exact h'
        · exact absurd (List.mem_singleton.mp h') hn
      exact h.unused r hold g' ((hreg r g' hg').resolve_right hn) honce e
  · intro r g' hg' honce
    rw [hcalls]
    rcases hreg r g' hg' with hold | rfl
    · exact h.once r g' hold honce
    · have hnone : (s.calls.filter fun call => call.2 = s.regs.length) = [] := by
        rw [List.filter_eq_nil_iff]
        intro call hmem hcall
        have hlt := (h.known call hmem).2
        have heq : call.2 = s.regs.length := by simpa using hcall
        omega
      rw [hnone]
      exact Nat.zero_le _
  · intro frame hmem
    rw [hframes] at hmem
    have hrun := h.frames frame hmem
    have hsplit : ∀ (i : ℕ) (slot : Slot F), s'.slots[i]? = some slot →
        s.slots[i]? = some slot ∨ i = s.slots.length ∧ slot.reg = s.regs.length := by
      intro i slot hslot
      rw [hr.slots] at hslot
      by_cases hlt : i < s.slots.length
      · rw [List.getElem?_append_left hlt] at hslot
        exact Or.inl hslot
      · have hlt' := (List.getElem?_eq_some_iff.mp hslot).1
        rw [List.length_append, List.length_singleton] at hlt'
        have hi : i = s.slots.length := by omega
        rw [hi, List.getElem?_append_right (Nat.le_refl _), Nat.sub_self] at hslot
        exact Or.inr ⟨hi, congrArg Slot.reg (Option.some.inj hslot).symm⟩
    have hzero : s.calls.count (frame.emit, s.regs.length) = 0 := List.count_eq_zero.mpr (hfresh _)
    refine ⟨?_, ?_, ?_, ?_, ?_, ?_⟩
    · rw [hemits]
      exact hrun.emit
    · rw [hr.slots, List.length_append]
      exact Nat.le_trans hrun.cursor (Nat.le_add_right _ _)
    · intro i slot hslot hle
      rw [hcalls]
      rcases hsplit i slot hslot with hold | ⟨-, hnew⟩
      · exact hrun.ahead i slot hold hle
      · rw [hnew]
        exact hzero
    · intro i slot hslot hlt hl
      rw [hcalls]
      rcases hsplit i slot hslot with hold | ⟨hi, -⟩
      · exact hrun.passed i slot hold hlt hl
      · have hcursor := hrun.cursor
        omega
    · intro slot hs
      rw [hcalls]
      obtain ⟨i, hi⟩ := List.mem_iff_getElem?.mp hs
      rcases hsplit i slot hi with hold | ⟨-, hnew⟩
      · exact hrun.atMost slot (List.mem_of_getElem? hold)
      · rw [hnew, hzero]
        exact Nat.zero_le _
    · intro r hr'
      obtain ⟨slot, hs, hreg'⟩ := hrun.started r hr'
      refine ⟨slot, ?_, hreg'⟩
      rw [hr.slots]
      exact List.mem_append_left _ hs
  · rw [hframes, hended]
    exact h.ids
  · intro d hd
    rw [hended] at hd
    unfold Called
    rw [hcalls, hemits]
    exact h.finished d hd

/-- Entries that are left empty do not change what a dispatch has called. -/
theorem Runs.fades (h : Runs s frame) (hf : Fades s.slots s'.slots)
    (hregs : s'.slots.map Slot.reg = s.slots.map Slot.reg) (hcalls : s'.calls = s.calls)
    (hemits : s'.emits = s.emits) : Runs s' frame := by
  refine ⟨?_, ?_, ?_, ?_, ?_, ?_⟩
  · rw [hemits]
    exact h.emit
  · rw [hf.length]
    exact h.cursor
  · intro i slot' hslot hle
    obtain ⟨slot, hslot', hreg, -, -⟩ := hf.back i slot' hslot
    rw [hcalls, hreg]
    exact h.ahead i slot hslot' hle
  · intro i slot' hslot hlt hl
    obtain ⟨slot, hslot', hreg, -, hlive⟩ := hf.back i slot' hslot
    rw [hcalls, hreg]
    exact h.passed i slot hslot' hlt (hlive hl)
  · intro slot' hs
    obtain ⟨i, hi⟩ := List.mem_iff_getElem?.mp hs
    obtain ⟨slot, hslot', hreg, -, -⟩ := hf.back i slot' hi
    rw [hcalls, hreg]
    exact h.atMost slot (List.mem_of_getElem? hslot')
  · intro r hr
    obtain ⟨slot, hs, hreg⟩ := h.started r hr
    have hmem : r ∈ s'.slots.map Slot.reg := by
      rw [hregs, ← hreg]
      exact List.mem_map_of_mem hs
    obtain ⟨slot', hs', hreg'⟩ := List.mem_map.mp hmem
    exact ⟨slot', hs', hreg'⟩

theorem Calls.retire (h : Calls s) (hd : Deletes s r s') : Calls (retire s' r) := by
  have hcalls : s'.calls = s.calls := by rw [hd.same]
  have hemits : s'.emits = s.emits := by rw [hd.same]
  have hframes : s'.frames = s.frames := by rw [hd.same]
  have hended : s'.ended = s.ended := by rw [hd.same]
  have hregs : s'.regs = s.regs := by rw [hd.same]
  have hactive : s'.active = s.active := by rw [hd.same]
  unfold PowerSubscriberSet.retire
  refine ⟨?_, ?_, ?_, ?_, ?_, ?_⟩
  · dsimp only
    rw [hcalls, hemits, hregs]
    exact h.known
  · intro r' hr' g hg
    dsimp only at hr' hg ⊢
    rw [hactive] at hr'
    rw [hregs] at hg
    rw [hcalls]
    exact h.unused r' (List.mem_of_mem_filter hr') g hg
  · dsimp only
    rw [hcalls, hregs]
    exact h.once
  · intro frame hmem
    dsimp only at hmem
    rw [hframes] at hmem
    exact (h.frames frame hmem).fades hd.fades hd.regs hcalls hemits
  · dsimp only
    rw [hframes, hended]
    exact h.ids
  · intro d hmem
    dsimp only at hmem ⊢
    rw [hended] at hmem
    unfold Called
    dsimp only
    rw [hcalls, hemits]
    exact h.finished d hmem

theorem Inv.emit (h : Inv s) : Inv (emit s) := by
  have hst := h.stores
  have hc := h.calls
  refine ⟨{ hst with }, ?_⟩
  unfold PowerSubscriberSet.emit
  refine ⟨?_, hc.unused, hc.once, ?_, ?_, ?_⟩
  · exact fun call hmem => ⟨Nat.lt_succ_of_lt (hc.known call hmem).1, (hc.known call hmem).2⟩
  · intro frame hmem
    rcases List.mem_cons.mp hmem with rfl | hold
    · have hzero : ∀ r, s.calls.count (s.emits, r) = 0 := by
        intro r
        apply count_of_fresh
        exact fun call hmem => Or.inl (Nat.ne_of_lt (hc.known call hmem).1)
      refine ⟨Nat.lt_succ_self _, Nat.zero_le _, fun _ _ _ _ => hzero _, ?_, ?_, ?_⟩
      · exact fun i _ _ hlt => absurd hlt (Nat.not_lt_zero i)
      · exact fun slot _ => le_of_eq_of_le (hzero _) (Nat.zero_le _)
      · intro r hr
        replace hr : r ∈ s.active := hr
        rw [← hst.standing, mem_registered] at hr
        obtain ⟨slot, hs, -, hreg⟩ := hr
        exact ⟨slot, hs, hreg⟩
    · have hrun := hc.frames frame hold
      exact ⟨Nat.lt_succ_of_lt hrun.emit, hrun.cursor, hrun.ahead, hrun.passed, hrun.atMost, hrun.started⟩
  · dsimp only
    rw [List.map_cons, List.cons_append, List.nodup_cons]
    refine ⟨fun hmem => ?_, hc.ids⟩
    rcases List.mem_append.mp hmem with hmem | hmem
    · obtain ⟨frame, hf, heq⟩ := List.mem_map.mp hmem
      exact Nat.ne_of_lt (hc.frames frame hf).emit heq
    · obtain ⟨d, hd, heq⟩ := List.mem_map.mp hmem
      exact Nat.ne_of_lt (hc.finished d hd).1 heq
  · exact fun d hd => ⟨Nat.lt_succ_of_lt (hc.finished d hd).1, (hc.finished d hd).2⟩

/-- Entries at two places are those of two registrations. -/
theorem Stores.place_unique (h : Stores s) {i k : ℕ} {a b : Slot F} (ha : s.slots[i]? = some a)
    (hb : s.slots[k]? = some b) (hreg : a.reg = b.reg) : i = k := by
  have hnd : (s.slots.map Slot.reg).Nodup := h.sorted.imp fun hlt => Nat.ne_of_lt hlt
  have hi := (List.getElem?_eq_some_iff.mp ha).1
  apply (List.getElem?_inj (by simpa using hi) hnd).mp
  rw [List.getElem?_map, List.getElem?_map, ha, hb, Option.map_some, Option.map_some, hreg]

theorem Calls.log {outer : List Frame} {k : ℕ} (hst : Stores s) (h : Calls s)
    (hframes : s.frames = frame :: outer) (hslot : s.slots[k]? = some slot) (hle : frame.cursor ≤ k)
    (hdead : ∀ (i : ℕ) (slot' : Slot F), s.slots[i]? = some slot' → frame.cursor ≤ i → i < k →
      slot'.live = false)
    (hunused : ∀ g ∈ s.regs[slot.reg]?, g.once = true → slot.reg ∉ s.active ∧ ∀ e, (e, slot.reg) ∉ s.calls) :
    Calls { s with
      frames := { frame with cursor := k + 1 } :: outer
      calls := s.calls ++ [(frame.emit, slot.reg)] } := by
  have hcount : ∀ e r, (s.calls ++ [(frame.emit, slot.reg)]).count (e, r) =
      s.calls.count (e, r) + if e = frame.emit ∧ r = slot.reg then 1 else 0 := by
    intro e r
    rw [List.count_append, List.count_singleton]
    by_cases hsame : e = frame.emit ∧ r = slot.reg
    · rw [if_pos hsame, hsame.1, hsame.2, if_pos (by simp)]
    · rw [if_neg hsame, if_neg]
      intro heq
      obtain ⟨rfl, rfl⟩ := Prod.mk.inj (by simpa using heq : (frame.emit, slot.reg) = (e, r))
      exact hsame ⟨rfl, rfl⟩
  have hother : ∀ e r, e ≠ frame.emit → (s.calls ++ [(frame.emit, slot.reg)]).count (e, r) =
      s.calls.count (e, r) := by
    intro e r hne
    rw [hcount, if_neg fun hsame => hne hsame.1, Nat.add_zero]
  have hrun := h.frames frame (by rw [hframes]; exact List.mem_cons_self)
  have hids := h.ids
  rw [hframes, List.map_cons, List.cons_append, List.nodup_cons] at hids
  have hzero := hrun.ahead k slot hslot hle
  refine ⟨?_, ?_, ?_, ?_, ?_, ?_⟩
  · intro call hmem
    rcases List.mem_append.mp hmem with hold | hnew
    · exact h.known call hold
    · obtain rfl := List.mem_singleton.mp hnew
      exact ⟨hrun.emit, hst.reg_lt (List.mem_of_getElem? hslot)⟩
  · intro r hr g hg honce e hmem
    rcases List.mem_append.mp hmem with hold | hnew
    · exact h.unused r hr g hg honce e hold
    · obtain ⟨-, rfl⟩ := Prod.mk.inj (List.mem_singleton.mp hnew)
      exact (hunused g hg honce).1 hr
  · intro r g hg honce
    show ((s.calls ++ [(frame.emit, slot.reg)]).filter fun call => call.2 = r).length ≤ 1
    rw [List.filter_append, List.length_append]
    by_cases hr : slot.reg = r
    · have hnone : (s.calls.filter fun call => call.2 = r) = [] := by
        rw [List.filter_eq_nil_iff]
        intro call hmem hcall
        refine (hunused g (hr ▸ hg) honce).2 call.1 ?_
        have heq : call.2 = slot.reg := (by simpa using hcall : call.2 = r).trans hr.symm
        rw [← heq]
        exact hmem
      rw [hnone, List.length_nil, Nat.zero_add]
      exact List.length_filter_le _ _
    · rw [List.filter_cons_of_neg (by simpa using hr)]
      exact h.once r g hg honce
  · intro frame' hmem
    rcases List.mem_cons.mp hmem with rfl | houter
    · refine ⟨hrun.emit, ?_, ?_, ?_, ?_, hrun.started⟩
      · have hlt := (List.getElem?_eq_some_iff.mp hslot).1
        exact hlt
      · intro i slot' hslot' hlt
        have hne : slot'.reg ≠ slot.reg := by
          intro heq
          have hik := hst.place_unique hslot' hslot heq
          have hlt' : k + 1 ≤ i := hlt
          omega
        show (s.calls ++ _).count (frame.emit, slot'.reg) = 0
        rw [hcount, if_neg fun hsame => hne hsame.2]
        have hlt' : k + 1 ≤ i := hlt
        exact hrun.ahead i slot' hslot' (by omega)
      · intro i slot' hslot' hlt hl
        have hlt' : i < k + 1 := hlt
        show (s.calls ++ _).count (frame.emit, slot'.reg) = 1
        rw [hcount]
        by_cases hik : i = k
        · subst hik
          obtain rfl := Option.some.inj (hslot'.symm.trans hslot)
          rw [if_pos ⟨rfl, rfl⟩, hzero]
        · have hne : slot'.reg ≠ slot.reg := fun heq => hik (hst.place_unique hslot' hslot heq)
          rw [if_neg fun hsame => hne hsame.2]
          by_cases hcursor : i < frame.cursor
          · exact hrun.passed i slot' hslot' hcursor hl
          · rw [hdead i slot' hslot' (by omega) (by omega)] at hl
            exact Bool.noConfusion hl
      · intro slot' hs'
        show (s.calls ++ _).count (frame.emit, slot'.reg) ≤ 1
        rw [hcount]
        by_cases hsame : slot'.reg = slot.reg
        · refine Nat.le_of_eq ?_
          rw [if_pos ⟨rfl, hsame⟩, hsame, hzero]
        · rw [if_neg fun hboth => hsame hboth.2]
          exact hrun.atMost slot' hs'
    · have hrun' := h.frames frame' (by rw [hframes]; exact List.mem_cons_of_mem _ houter)
      have hne : frame'.emit ≠ frame.emit := by
        intro heq
        exact hids.1 (List.mem_append_left _ (heq ▸ List.mem_map_of_mem houter))
      refine ⟨hrun'.emit, hrun'.cursor, ?_, ?_, ?_, hrun'.started⟩
      · intro i slot' hslot' hle'
        exact (hother _ _ hne).trans (hrun'.ahead i slot' hslot' hle')
      · intro i slot' hslot' hlt hl
        exact (hother _ _ hne).trans (hrun'.passed i slot' hslot' hlt hl)
      · intro slot' hs'
        exact le_of_eq_of_le (hother _ _ hne) (hrun'.atMost slot' hs')
  · show (frame.emit :: (outer.map Frame.emit ++ s.ended.map Ended.emit)).Nodup
    exact List.nodup_cons.mpr hids
  · intro d hd
    have hne : d.emit ≠ frame.emit := by
      intro heq
      exact hids.1 (List.mem_append_right _ (heq ▸ List.mem_map_of_mem hd))
    refine ⟨(h.finished d hd).1, fun r hr => ?_⟩
    show (s.calls ++ _).count (d.emit, r) ≤ 1 ∧ (_ → (s.calls ++ _).count (d.emit, r) = 1)
    rw [hother _ _ hne]
    exact (h.finished d hd).2 r hr

/-- A dispatch that finds nothing more is over. -/
theorem Calls.finish {outer : List Frame} (hst : Stores s) (h : Calls s)
    (hframes : s.frames = frame :: outer)
    (hdead : ∀ (i : ℕ) (slot : Slot F), s.slots[i]? = some slot → frame.cursor ≤ i → slot.live = false) :
    Calls { s with frames := outer, ended := s.ended ++ [⟨frame.emit, frame.started, s.active⟩] } := by
  have hrun := h.frames frame (by rw [hframes]; exact List.mem_cons_self)
  have hids := h.ids
  rw [hframes] at hids
  refine ⟨h.known, h.unused, h.once, ?_, ?_, ?_⟩
  · intro frame' hmem
    have hrun' := h.frames frame' (by rw [hframes]; exact List.mem_cons_of_mem _ hmem)
    exact { hrun' with }
  · dsimp only
    have hperm : (outer.map Frame.emit ++
        (s.ended ++ [(⟨frame.emit, frame.started, s.active⟩ : Ended)]).map Ended.emit).Perm ((frame :: outer).map Frame.emit ++ s.ended.map Ended.emit) := by
      rw [List.map_append, ← List.append_assoc]
      exact List.perm_append_singleton _ _
    exact hperm.nodup_iff.mpr hids
  · intro d hd
    rcases List.mem_append.mp hd with hold | hnew
    · exact h.finished d hold
    · obtain rfl := List.mem_singleton.mp hnew
      refine ⟨hrun.emit, fun r hr => ⟨?_, fun hstands => ?_⟩⟩
      · obtain ⟨slot, hs, rfl⟩ := hrun.started r hr
        exact hrun.atMost slot hs
      · replace hstands : r ∈ s.active := hstands
        rw [← hst.standing, mem_registered] at hstands
        obtain ⟨slot, hs, hl, rfl⟩ := hstands
        obtain ⟨i, hi⟩ := List.mem_iff_getElem?.mp hs
        refine hrun.passed i slot hi ?_ hl
        by_contra hge
        rw [hdead i slot hi (Nat.not_lt.mp hge)] at hl
        exact Bool.noConfusion hl

/-! ## One step, and runs -/

theorem Stores.congr (h : Stores s) (hslots : s'.slots = s.slots)
    (hregs : s'.regs = s.regs) (hactive : s'.active = s.active) (hmap : s'.onceMap = s.onceMap) : Stores s' := by
  refine ⟨?_, ?_, ?_, ?_, ?_⟩
  · rw [hslots, hactive]
    exact h.standing
  · rw [hslots]
    exact h.sorted
  · rw [hslots, hregs]
    exact h.known
  · rw [hactive, hregs]
    exact h.distinct
  · rw [hactive, hregs, hmap]
    exact h.onceMap

/-- The place a dispatch finds: nothing between its cursor and that place is there. -/
theorem next_found {c j : ℕ} (h : (slots.drop c).findIdx? Slot.live = some j) :
    ∃ slot, slots[c + j]? = some slot ∧ slot.live = true ∧
      ∀ (i : ℕ) (slot' : Slot F), slots[i]? = some slot' → c ≤ i → i < c + j → slot'.live = false := by
  obtain ⟨hlt, hlive, hbefore⟩ := List.findIdx?_eq_some_iff_getElem.mp h
  rw [List.length_drop] at hlt
  refine ⟨slots[c + j], List.getElem?_eq_getElem (by omega), ?_, ?_⟩
  · rw [List.getElem_drop] at hlive
    exact hlive
  · intro i slot' hslot' hle hlt'
    have hj : i - c < j := by omega
    have hdead := hbefore (i - c) hj
    rw [List.getElem_drop] at hdead
    have hi : c + (i - c) = i := by omega
    have hget := (List.getElem?_eq_some_iff.mp hslot').2
    simp only [hi, hget] at hdead
    simpa using hdead

theorem next_ended {c : ℕ} (h : (slots.drop c).findIdx? Slot.live = none) (i : ℕ) (slot : Slot F)
    (hslot : slots[i]? = some slot) (hle : c ≤ i) : slot.live = false := by
  rw [List.findIdx?_eq_none_iff] at h
  refine h slot (List.mem_iff_getElem?.mpr ⟨i - c, ?_⟩)
  rw [List.getElem?_drop]
  have hi : c + (i - c) = i := by omega
  rw [hi]
  exact hslot

theorem Inv.next (h : Inv s) : Inv (next s) := by
  have hst := h.stores
  unfold PowerSubscriberSet.next
  cases hframes : s.frames with
  | nil => exact h
  | cons frame outer =>
    dsimp only
    cases hfind : (s.slots.drop frame.cursor).findIdx? Slot.live with
    | none =>
      refine ⟨hst.congr rfl rfl rfl rfl, h.calls.finish hst hframes ?_⟩
      exact next_ended hfind
    | some j =>
      obtain ⟨slot, hslot, hlive, hdead⟩ := next_found hfind
      dsimp only
      rw [hslot]
      dsimp only
      obtain ⟨g, hg, hlistener⟩ := hst.known slot (List.mem_of_getElem? hslot)
      have hactive := hst.mem_active (List.mem_of_getElem? hslot) hlive
      cases hone : slot.listener with
      | fn f =>
        dsimp only
        have honce : g.once = false := by
          rw [hlistener] at hone
          unfold listenerOf at hone
          split at hone
          · cases hone
          · next hfalse => exact Bool.eq_false_iff.mpr hfalse
        refine ⟨hst.congr rfl rfl rfl rfl, Calls.log hst h.calls hframes hslot (Nat.le_add_right _ _) hdead ?_⟩
        intro g' hg' honce'
        rw [hg] at hg'
        rw [← Option.some.inj hg', honce] at honce'
        exact Bool.noConfusion honce'
      | wrapper w f =>
        dsimp only
        have hreg : s.regs[slot.reg]? = some ⟨f, true⟩ := by
          obtain ⟨fn, once⟩ := g
          rw [hlistener] at hone
          unfold listenerOf at hone
          split at hone
          · next htrue =>
            obtain ⟨-, hfn⟩ := Listener.wrapper.inj hone
            replace hfn : fn = f := hfn
            replace htrue : once = true := htrue
            rw [hg, hfn, htrue]
          · cases hone
        have hd := delete_once hst hactive hreg
        -- the wrapper leaves the set first, and is called then
        have hst₁ : Stores (retire (delete s f) slot.reg) := hst.retire hd
        have hc₁ : Calls (retire (delete s f) slot.reg) := h.calls.retire hd
        obtain ⟨slot₁, hslot₁, hreg₁, hdead₁⟩ : ∃ slot₁, (retire (delete s f) slot.reg).slots[frame.cursor + j]? =
            some slot₁ ∧ slot₁.reg = slot.reg ∧ ∀ (i : ℕ) (slot' : Slot F),
              (retire (delete s f) slot.reg).slots[i]? = some slot' → frame.cursor ≤ i →
                i < frame.cursor + j → slot'.live = false := by
          have hlen : frame.cursor + j < (delete s f).slots.length := by
            rw [hd.fades.length]
            exact (List.getElem?_eq_some_iff.mp hslot).1
          have hget : (delete s f).slots[frame.cursor + j]? = some (delete s f).slots[frame.cursor + j] :=
            List.getElem?_eq_getElem hlen
          refine ⟨_, hget, ?_, ?_⟩
          · obtain ⟨slot', hslot', hreg', -, -⟩ := hd.fades.back _ _ hget
            rw [hslot] at hslot'
            rw [hreg', ← Option.some.inj hslot']
          · intro i slot' hslot' hle hlt
            obtain ⟨slot'', hslot'', -, -, hl⟩ := hd.fades.back i slot' hslot'
            rw [Bool.eq_false_iff]
            intro htrue
            have hfalse := hdead i slot'' hslot'' hle hlt
            rw [hl htrue] at hfalse
            exact Bool.noConfusion hfalse
        have hframes₁ : (retire (delete s f) slot.reg).frames = frame :: outer := by
          show (delete s f).frames = _
          rw [hd.same]
          exact hframes
        have hlog := Calls.log hst₁ hc₁ hframes₁ hslot₁ (Nat.le_add_right _ _) hdead₁ (by
          intro g' _ _
          rw [hreg₁]
          refine ⟨?_, fun e hmem => ?_⟩
          · show slot.reg ∉ (delete s f).active.filter _
            simp
          · have hcalls : (retire (delete s f) slot.reg).calls = s.calls := by
              show (delete s f).calls = s.calls
              rw [hd.same]
            rw [hcalls] at hmem
            exact h.calls.unused slot.reg hactive _ hreg rfl e hmem)
        rw [hreg₁] at hlog
        have hsame : retire (delete { s with
              frames := { frame with cursor := frame.cursor + j + 1 } :: outer
              calls := s.calls ++ [(frame.emit, slot.reg)] } f) slot.reg =
            { retire (delete s f) slot.reg with
              frames := { frame with cursor := frame.cursor + j + 1 } :: outer
              calls := (retire (delete s f) slot.reg).calls ++ [(frame.emit, slot.reg)] } := by
          unfold retire delete
          dsimp only
          cases s.onceMap f <;> rfl
        rw [hsame]
        exact ⟨hst₁.congr rfl rfl rfl rfl, hlog⟩

theorem step_inv (h : Inv s) (e : Event F) (hok : Separate s e) : Inv (step s e) := by
  cases e with
  | add f =>
    by_cases hroom : Full s
    · have hsame : (add s f).1 = s := by
        unfold add
        rw [if_pos hroom]
      show Inv (add s f).1
      rw [hsame]
      exact h
    · have hr := add_registers h.stores hok hroom
      exact ⟨h.stores.registers hr hok, h.calls.registers hr⟩
  | addOnce f =>
    by_cases hroom : Full s
    · have hsame : (addOnce s f).1 = s := by
        unfold addOnce
        rw [if_pos hroom]
      show Inv (addOnce s f).1
      rw [hsame]
      exact h
    · have hr := addOnce_registers h.stores hok hroom
      exact ⟨h.stores.registers hr hok, h.calls.registers hr⟩
  | unsubscribe r =>
    show Inv (unsubscribe s r)
    unfold unsubscribe
    cases hg : s.regs[r]? with
    | none => exact h
    | some g =>
      have hd := unsubscribe_deletes h.stores hg hok
      exact ⟨h.stores.retire hd, h.calls.retire hd⟩
  | emit => exact h.emit
  | next => exact h.next

theorem Inv.independent (h : Inv s) : Independent s :=
  ⟨h.stores.standing, fun r g hg honce => h.calls.once r g hg honce, fun d hd => (h.calls.finished d hd).2⟩

theorem Inv.removesOwn (h : Inv s) (e : Event F) (hok : Separate s e) : RemovesOwn s e := by
  intro r hr he
  subst he
  have hg : s.regs[r]? = some s.regs[r] := List.getElem?_eq_getElem hr
  have hd := unsubscribe_deletes h.stores hg hok
  show registered (unsubscribe s r).slots = _
  unfold unsubscribe
  rw [hg]
  exact hd.registered

theorem new_inv (maxListeners : ℕ) : Inv (new maxListeners : Subscribers F) := by
  refine ⟨⟨rfl, List.Pairwise.nil, ?_, ?_, ?_⟩, ?_, ?_, ?_, ?_, List.nodup_nil, ?_⟩
  · exact fun _ hs => absurd hs List.not_mem_nil
  · exact fun _ hr => absurd hr List.not_mem_nil
  · exact fun f w => iff_of_false (Option.some_ne_none w).symm fun hw => absurd hw.1 List.not_mem_nil
  · exact fun _ hc => absurd hc List.not_mem_nil
  · exact fun _ hr => absurd hr List.not_mem_nil
  · exact fun _ _ _ _ => Nat.zero_le 1
  · exact fun _ hf => absurd hf List.not_mem_nil
  · exact fun _ hd => absurd hd List.not_mem_nil

end

end PerformanceHelpers.PowerSubscriberSet
