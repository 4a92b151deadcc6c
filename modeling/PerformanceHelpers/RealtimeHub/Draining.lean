import PerformanceHelpers.RealtimeHub.Steps

/- Whether a queued message has something that will drain it.

   A message waits for a timer or a microtask, for a send of its subscriber (whose
   chain flushes again), for a `flush()` under way, or for a loop or a round of
   handlers on the stack (`WillDrain`). A flush that fails, because its batch cannot
   be encoded or because `send` throws, has no chain: what is left in the queue
   after it waits for the next `publish`, unless something else will drain it.

   What is proved: `drained_iff_none_stranded`, over a whole run of a hub that
   batches, every queued message has something that will drain it exactly when no
   failing flush leaves messages behind with nothing else to drain them
   (`throw_strands` has one that does). -/
namespace PerformanceHelpers.RealtimeHub

section
variable {J : Type}

/-- The loop, or the round of handlers, will come to `i`. -/
def Activity.comesTo (i : ℕ) : Activity → Bool
  | .drain rest | .flushAll rest => rest.contains i
  | .handlers j => j == i
  | .send _ _ => false

/-- Something will drain `i`'s queue: a flush is on its way, a send of `i` is in
flight or has its chain to run, a `flush()` waits for `i`, or what is on the stack
comes to it. -/
def WillDrain (h : Hub J) (i : ℕ) : Prop :=
  Pending h ∨ 0 < sending h i ∨ 0 < (h.subs i).chained ∨ i ∈ h.waiting ∨
    ∃ a ∈ h.stack, a.comesTo i = true

instance (h : Hub J) (i : ℕ) : Decidable (WillDrain h i) :=
  inferInstanceAs (Decidable ((_ ∨ _) ∨ _ ∨ _ ∨ _ ∨ _))

/-- No accepted message is left queued with nothing that will drain it. -/
def Drained (h : Hub J) : Prop :=
  ∀ i, (h.subs i).closed = false → (h.subs i).queue ≠ [] → WillDrain h i

variable {i : ℕ} {h' h : Hub J}

theorem willDrain_congr (hpend : Pending h' ↔ Pending h)
    (hsending : sending h' i = sending h i) (hchained : (h'.subs i).chained = (h.subs i).chained)
    (hbusy : h'.stack = h.stack ∧ h'.waiting = h.waiting) : WillDrain h' i ↔ WillDrain h i := by
  unfold WillDrain
  rw [hpend, hsending, hchained, hbusy.1, hbusy.2]

theorem willDrain_of_comesTo (a : Activity) (ha : a ∈ h.stack)
    (hcomes : a.comesTo i = true) : WillDrain h i :=
  Or.inr (Or.inr (Or.inr (Or.inr ⟨a, ha, hcomes⟩)))

theorem WillDrain.imp (hw : WillDrain h i) (hpend : Pending h → Pending h')
    (hsending : 0 < sending h i → 0 < sending h' i)
    (hchained : 0 < (h.subs i).chained → 0 < (h'.subs i).chained)
    (hwait : i ∈ h.waiting → i ∈ h'.waiting)
    (hstack : ∀ a ∈ h.stack, a.comesTo i = true → WillDrain h' i) : WillDrain h' i := by
  rcases hw with hw | hw | hw | hw | ⟨a, ha, hcomes⟩
  · exact Or.inl (hpend hw)
  · exact Or.inr (Or.inl (hsending hw))
  · exact Or.inr (Or.inr (Or.inl (hchained hw)))
  · exact Or.inr (Or.inr (Or.inr (Or.inl (hwait hw))))
  · exact hstack a ha hcomes

/-- What will drain `i` is still there when only the stack and the list of pending
flushes move on, given what becomes of the activities that come to `i`. -/
theorem WillDrain.move (hw : WillDrain h i)
    (hpend : Pending h → Pending h') (hsub : h'.subs i = h.subs i)
    (hcount : h'.stack.countP (·.sendsTo i) = h.stack.countP (·.sendsTo i))
    (hwait : i ∈ h.waiting → i ∈ h'.waiting)
    (hstack : ∀ a ∈ h.stack, a.comesTo i = true → WillDrain h' i) : WillDrain h' i := by
  refine hw.imp hpend ?_ ?_ hwait hstack
  · rw [sending, sending, hsub, hcount]
    exact fun hpos => hpos
  · rw [hsub]
    exact fun hpos => hpos

/-- The innermost activity `a₀` gives way to `new`. -/
theorem WillDrain.replace {a₀ : Activity} {stack : List Activity}
    (new : List Activity) (hs : h.stack = a₀ :: stack) (hw : WillDrain h i)
    (hcount : new.countP (·.sendsTo i) = [a₀].countP (·.sendsTo i))
    (hcomes : a₀.comesTo i = true → WillDrain { h with stack := new ++ stack } i) :
    WillDrain { h with stack := new ++ stack } i := by
  refine hw.move (fun hp => hp) rfl ?_ (fun hw => hw) ?_
  · rw [hs, List.countP_append, hcount, ← List.countP_append]
    rfl
  · intro a ha ha'
    rw [hs] at ha
    rcases List.mem_cons.mp ha with rfl | ha
    · exact hcomes ha'
    · exact willDrain_of_comesTo a (List.mem_append_right _ ha) ha'

/-! ## What an event leaves, its flush aside -/

theorem Calls.drains (hc : Calls h h') (hb : h.batch = true) (hd : Drained h) :
    Drained h' := by
  intro i hopen hq
  rcases hc.queued hb i hopen hq with ⟨hopen₀, hq₀⟩ | hp
  · have hhub : h'.closed = false := by
      by_contra hne
      have := hc.valid.shut (by simpa using hne) i
      rw [hopen] at this
      cases this
    refine (hd i hopen₀ hq₀).imp (hc.pending hhub) ?_ ?_ ?_ fun a ha => willDrain_of_comesTo a ?_
    · rw [hc.sending_eq]
      exact fun hpos => hpos
    · rw [hc.chained_eq]
      exact fun hpos => hpos
    · rw [hc.busy.2]
      exact fun hwait => hwait
    · rw [hc.busy.1]
      exact ha
  · exact Or.inl hp

/-- A sweep's list has every live subscriber with a queue. -/
theorem mem_queuedSubscribers (hv : Valid h) (hc : (h.subs i).closed = false)
    (hq : (h.subs i).queue ≠ []) : i ∈ queuedSubscribers h := by
  apply List.mem_filter.mpr
  refine ⟨(List.mem_insertionSort _).mpr (hv.listed i hc), ?_⟩
  simp [hc, hq]

variable [DecidableEq J] (T : JsonText (List J))

/-- The subscriber whose flush fails in an event: its batch cannot be encoded, or
`send` throws. -/
def fails (h : Hub J) : Event J → Option ℕ
  | .sendThrew =>
    match h.stack with
    | .send i _ :: _ => some i
    | _ => none
  | e => (flushed h e).filter fun i => !decide (Sends T h i)

def leftover (h : Hub J) (e : Event J) (i : ℕ) : List (Queued J) :=
  match e with
  | .sendThrew => (h.subs i).queue
  | _ => (h.subs i).queue.drop (h.subs i).maxBatch

/-- A flush that fails leaves a live subscriber no messages, or something else will
drain them. -/
def NoneStranded (h : Hub J) (e : Event J) : Prop :=
  ∀ i ∈ fails T h e, (h.subs i).closed = false → leftover h e i ≠ [] →
    WillDrain (prepared T h e) i

instance (h : Hub J) (e : Event J) : Decidable (NoneStranded T h e) :=
  inferInstanceAs (Decidable (∀ i ∈ fails T h e, (h.subs i).closed = false → leftover h e i ≠ [] →
    WillDrain (prepared T h e) i))

section
omit [DecidableEq J]

theorem awaits_willDrain {j : ℕ} (hw : WillDrain h j) : WillDrain (awaits h i) j := by
  unfold awaits
  split
  · exact hw
  · exact hw.imp (fun hp => hp) (fun hpos => hpos) (fun hpos => hpos) (List.mem_cons_of_mem _)
      fun a ha => willDrain_of_comesTo a ha

/-- A live subscriber with a queue that `_drainSubscriberFully` does not flush now
has a send in flight. -/
theorem sending_of_not_drainsNow (hv : Valid h)
    (hc : (h.subs i).closed = false) (hq : (h.subs i).queue ≠ []) (hnow : drainsNow h i = false) :
    0 < sending h i := by
  have hflight := hv.inFlight_eq i
  simp only [drainsNow, hc, Bool.not_false, Bool.true_and, Bool.and_eq_false_iff,
    Bool.not_eq_false', List.isEmpty_iff, decide_eq_false_iff_not] at hnow
  rcases hnow with hnil | hpos
  · exact absurd hnil hq
  · omega

theorem sending_of_not_flushed (hv : Valid h) (hc : (h.subs i).closed = false)
    (hq : (h.subs i).queue ≠ []) (hflush : i ∉ (if drainsNow h i then some i else none)) :
    0 < sending h i := by
  apply sending_of_not_drainsNow hv hc hq
  by_contra hne
  rw [if_pos (by simpa using hne)] at hflush
  exact hflush rfl

theorem awaits_subs (h : Hub J) (i : ℕ) : (awaits h i).subs = h.subs := by
  unfold awaits
  split <;> rfl

end

omit [DecidableEq J] in
/-- A loop moves past `k`, which it has flushed or which has a send in flight. -/
theorem WillDrain.pass {a₀ a : Activity} {stack : List Activity} {k : ℕ} {rest : List ℕ}
    (hs : h.stack = a₀ :: stack) (hw : WillDrain h i)
    (hcount : [a].countP (·.sendsTo i) = [a₀].countP (·.sendsTo i))
    (hcomes : a₀.comesTo i = (k :: rest).contains i ∧ a.comesTo i = rest.contains i)
    (hpassed : i = k → 0 < sending h i) : WillDrain { h with stack := a :: stack } i := by
  refine .replace [a] hs hw hcount fun hcome => ?_
  rw [hcomes.1, List.contains_cons, Bool.or_eq_true, beq_iff_eq] at hcome
  rcases hcome with hik | hcome
  · have hsame : sending { h with stack := a :: stack } i = sending h i := by
      rw [sending, sending, hs, List.countP_cons, List.countP_cons]
      rw [List.countP_singleton, List.countP_singleton] at hcount
      rw [hcount]
    have hsending : 0 < sending { h with stack := a :: stack } i := hsame ▸ hpassed hik
    exact Or.inr (Or.inl hsending)
  · exact willDrain_of_comesTo a List.mem_cons_self (hcomes.2.trans hcome)

/-- A loop that comes to `i` moves past it only when it flushes it or a send of `i`
is in flight. -/
theorem turn_drains (hv : Valid h) (hd : Drained h) (i : ℕ)
    (hc : ((prepared T h .turn).subs i).closed = false)
    (hq : ((prepared T h .turn).subs i).queue ≠ []) (hflush : i ∉ flushed h .turn) :
    WillDrain (prepared T h .turn) i := by
  revert hc hq hflush
  simp only [prepared, flushed]
  cases hs : h.stack with
  | nil => exact fun hc hq _ => hd i hc hq
  | cons a stack =>
    cases a with
    | drain rest =>
      cases rest with
      | nil =>
        intro hc hq _
        exact .replace [] hs (hd i hc hq) rfl fun hcomes => Bool.noConfusion hcomes
      | cons k rest =>
        intro hc hq hflush
        refine .pass hs (hd i hc hq) rfl ⟨rfl, rfl⟩ ?_
        rintro rfl
        have hflush : i ∉ (if 0 < (h.subs i).inFlight then none else some i) := hflush
        have hpos : 0 < (h.subs i).inFlight := by
          by_contra hle
          rw [if_neg hle] at hflush
          exact hflush rfl
        have hflight := hv.inFlight_eq i
        omega
    | flushAll rest =>
      cases rest with
      | nil =>
        intro hc hq _
        exact .replace [] hs (hd i hc hq) rfl fun hcomes => Bool.noConfusion hcomes
      | cons k rest =>
        simp only [awaits_subs]
        intro hc hq hflush
        apply awaits_willDrain
        refine .pass hs (hd i hc hq) rfl ⟨rfl, rfl⟩ ?_
        rintro rfl
        exact sending_of_not_flushed hv hc hq hflush
    | send k n | handlers k => exact fun hc hq _ => hd i hc hq

omit [DecidableEq J] in
/-- One subscriber object changes, and the stack. -/
theorem Drained.setSub {k : ℕ} {s : Sub J} {stack : List Activity} {c : Counters} (hd : Drained h)
    (hc : ((h.setSub k s).subs i).closed = false) (hq : ((h.setSub k s).subs i).queue ≠ [])
    (hown : i = k → WillDrain { h.setSub k s with stack, counters := c } i)
    (hcount : i ≠ k → stack.countP (·.sendsTo i) = h.stack.countP (·.sendsTo i))
    (hstack : ∀ a ∈ h.stack, a.comesTo i = true → a ∈ stack) :
    WillDrain { h.setSub k s with stack, counters := c } i := by
  by_cases hik : i = k
  · exact hown hik
  · have hsub : (h.setSub k s).subs i = h.subs i := Function.update_of_ne hik _ _
    rw [hsub] at hc hq
    exact (hd i hc hq).move (fun hp => hp) hsub (hcount hik) (fun hw => hw)
      fun a ha hcomes => willDrain_of_comesTo a (hstack a ha hcomes) hcomes

theorem prepared_drains (hv : Valid h) (hb : h.batch = true) (hd : Drained h)
    (e : Event J) (i : ℕ) (hc : ((prepared T h e).subs i).closed = false)
    (hq : ((prepared T h e).subs i).queue ≠ []) (hflush : i ∉ flushed h e)
    (hthrow : e = .sendThrew → i ∉ fails T h e) : WillDrain (prepared T h e) i := by
  have hrest : ∀ {k bytes stack}, h.stack = .send k bytes :: stack →
      (i ≠ k → stack.countP (·.sendsTo i) = h.stack.countP (·.sendsTo i)) ∧
        ∀ a ∈ h.stack, a.comesTo i = true → a ∈ stack := by
    intro k bytes stack hs
    rw [hs]
    refine ⟨fun hik => by rw [countP_send, if_neg hik]; rfl, fun a ha hcomes => ?_⟩
    rcases List.mem_cons.mp ha with rfl | ha
    · cases hcomes
    · exact ha
  cases e with
  | subscribe topic o n => exact (subscribe_step T hv topic o n).drains hb hd i hc hq
  | unsubscribe id => exact (unsubscribe_step T hv id).drains hb hd i hc hq
  | publish topic m r p a => exact (publish_step T hv topic m r p a).drains hb hd i hc hq
  | close => exact (close_step T hv).drains hb hd i hc hq
  | mutate ref value =>
    revert hc hq
    simp only [prepared, step]
    split
    · exact fun hc hq => hd i hc hq
    · exact fun hc hq => hd i hc hq
  | flush =>
    revert hc hq
    simp only [prepared, step]
    split
    · intro hc hq
      exact willDrain_of_comesTo (.flushAll (queuedSubscribers h)) List.mem_cons_self
        (by simpa [Activity.comesTo] using mem_queuedSubscribers hv hc hq)
    · exact fun hc hq => hd i hc hq
  | timer | microtask =>
    revert hc hq
    simp only [prepared, step]
    split
    · intro hc hq
      exact willDrain_of_comesTo (.drain (queuedSubscribers h)) List.mem_cons_self
        (by simpa [Activity.comesTo] using mem_queuedSubscribers hv hc hq)
    · exact fun hc hq => hd i hc hq
  | turn => exact turn_drains T hv hd i hc hq hflush
  | sendReturned =>
    revert hc hq
    simp only [prepared, step]
    split
    · rename_i k bytes stack hs
      intro hc hq
      refine hd.setSub hc hq ?_ (hrest hs).1 (hrest hs).2
      rintro rfl
      refine Or.inr (Or.inl ?_)
      rw [sending_setSub fun j hj => by rw [countP_stack hs, if_neg hj]; rfl, if_pos rfl]
      exact Nat.succ_pos _
    · exact fun hc hq => hd i hc hq
  | sendThrew =>
    revert hc hq
    have hthrow := hthrow rfl
    simp only [fails] at hthrow
    simp only [prepared, step]
    split
    · rename_i k bytes stack hs
      intro hc hq
      refine hd.setSub hc hq ?_ (hrest hs).1 (hrest hs).2
      rintro rfl
      rw [hs] at hthrow
      exact absurd rfl hthrow
    · exact fun hc hq => hd i hc hq
  | settled k =>
    revert hc hq
    simp only [prepared, step, settled]
    split
    · split
      · exact fun hc hq => hd i hc hq
      · intro hc hq
        refine hd.setSub hc hq ?_ (fun _ => rfl) fun a ha _ => ha
        rintro rfl
        refine Or.inr (Or.inr (Or.inl ?_))
        rw [setSub_sub, if_pos rfl]
        exact Nat.succ_pos _
    · exact fun hc hq => hd i hc hq
  | chain k =>
    revert hc hq
    simp only [prepared, step]
    split
    · rename_i hguard
      have hs : h.stack = [] := by
        simpa using (Bool.and_eq_true_iff.mp hguard).1
      intro hc hq
      refine hd.setSub hc hq ?_ (fun _ => by rw [hs]; rfl) fun a ha => ?_
      · rintro rfl
        exact willDrain_of_comesTo (.handlers i) List.mem_cons_self (by simp [Activity.comesTo])
      · rw [hs] at ha
        cases ha
    · exact fun hc hq => hd i hc hq
  | handled =>
    revert hc hq hflush
    simp only [prepared, flushed]
    cases hs : h.stack with
    | nil => exact fun hc hq _ => hd i hc hq
    | cons a stack =>
      cases a with
      | handlers k =>
        intro hc hq hflush
        have hflush : i ∉ (if !(h.subs k).queue.isEmpty && !(h.subs k).closed then some k
            else none) := hflush
        apply WillDrain.replace [] hs (hd i hc hq) rfl
        intro hcomes
        obtain rfl : k = i := by simpa [Activity.comesTo] using hcomes
        -- its chain flushes
        have hc : (h.subs k).closed = false := hc
        have hq : (h.subs k).queue ≠ [] := hq
        simp [hc, hq] at hflush
      | drain rest | flushAll rest | send k n => exact fun hc hq _ => hd i hc hq
  | resume k =>
    revert hc hq hflush
    simp only [prepared, flushed]
    split
    · rename_i hguard
      rw [awaits_subs]
      intro hc hq hflush
      have hflush : i ∉ (if drainsNow h k then some k else none) := by
        simpa only [hguard, Bool.true_and] using hflush
      have hc : (h.subs i).closed = false := hc
      have hq : (h.subs i).queue ≠ [] := hq
      apply awaits_willDrain
      by_cases hik : i = k
      · subst hik
        have hsending : 0 < sending h i := sending_of_not_flushed hv hc hq hflush
        exact Or.inr (Or.inl hsending)
      · exact (hd i hc hq).move (fun hp => hp) rfl rfl
          (fun hw => (List.mem_erase_of_ne hik).mpr hw)
          fun a ha hcomes => willDrain_of_comesTo a ha hcomes
    · exact fun hc hq _ => hd i hc hq

/-- A flush leaves every queue but its own drained as it was. Its own is drained
after it exactly when the flush calls `send`, leaves nothing, or leaves it to
something else. -/
theorem flush_drained_iff (hv : Valid h) (k : ℕ)
    (hothers : ∀ i ≠ k, (h.subs i).closed = false → (h.subs i).queue ≠ [] → WillDrain h i) :
    Drained (flushSubscriber T h k) ↔ (¬ Sends T h k → (h.subs k).closed = false →
      (h.subs k).queue.drop (h.subs k).maxBatch ≠ [] → WillDrain h k) := by
  rcases flushSubscriber_cases T h k with ⟨hb, heq⟩ | ⟨hb, henc, c, heq⟩ | ⟨hb, henc, c, f, n, heq⟩
  · have hnil : (h.subs k).queue = [] := (nextBatch_eq_nil hv k).mp hb
    rw [heq]
    refine iff_of_true (fun i hc hq => ?_) fun _ _ hdrop => ?_
    · by_cases hik : i = k
      · exact absurd (hik ▸ hnil) hq
      · exact hothers i hik hc hq
    · simp [hnil] at hdrop
  · have hnot : ¬ Sends T h k := fun hs => hs.2 henc
    have hsub : ∀ i, (flushSubscriber T h k).subs i =
        if i = k then { h.subs k with
          queue := (h.subs k).queue.drop (h.subs k).maxBatch
          dropped := (h.subs k).dropped + (nextBatch h k).length } else h.subs i := by
      intro i
      rw [heq]
      exact setSub_sub h k _ i
    have hcongr : ∀ i, WillDrain (flushSubscriber T h k) i ↔ WillDrain h i := by
      intro i
      apply willDrain_congr
      · rw [heq]
        exact Iff.rfl
      · have hstack : (flushSubscriber T h k).stack = h.stack := by rw [heq]; rfl
        rw [sending, sending, hstack, hsub]
        split_ifs with hik
        · rw [hik]
        · rfl
      · rw [hsub]
        split_ifs with hik
        · rw [hik]
        · rfl
      · rw [heq]
        exact ⟨rfl, rfl⟩
    constructor
    · intro hall _ hc hdrop
      have hk := hall k
      rw [hsub, if_pos rfl, hcongr] at hk
      exact hk hc hdrop
    · intro hguard i hc hq
      rw [hcongr]
      rw [hsub] at hc hq
      by_cases hik : i = k
      · subst hik
        rw [if_pos rfl] at hc hq
        exact hguard hnot hc hq
      · rw [if_neg hik] at hc hq
        exact hothers i hik hc hq
  · have hsends : Sends T h k := ⟨hb, henc⟩
    refine iff_of_true (fun i hc hq => ?_) fun hnot => absurd hsends hnot
    by_cases hik : i = k
    · subst hik
      refine Or.inr (Or.inl ?_)
      rw [(flushSubscriber_flushes T hv i).sending_eq, if_pos ⟨rfl, hsends⟩]
      omega
    · have hsub : (flushSubscriber T h k).subs i = h.subs i := by
        rw [heq]
        exact Function.update_of_ne hik _ _
      have hstack : (flushSubscriber T h k).stack = .send k n :: h.stack := by rw [heq]
      rw [hsub] at hc hq
      refine (hothers i hik hc hq).move (fun hp => ?_) hsub ?_ (fun hw => ?_) fun a ha hcomes => ?_
      · rw [heq]
        exact hp
      · rw [hstack, countP_send, if_neg hik]
        rfl
      · rw [heq]
        exact hw
      · exact willDrain_of_comesTo a (by rw [hstack]; exact List.mem_cons_of_mem _ ha) hcomes

theorem drained_step_iff (hv : Valid h) (hb : h.batch = true) (hd : Drained h)
    (e : Event J) : Drained (step T h e) ↔ NoneStranded T h e := by
  have hr := prepared_readies T hv e
  rw [step_eq]
  unfold NoneStranded
  cases hf : flushed h e with
  | none =>
    show Drained (prepared T h e) ↔ _
    have hnone : ∀ i, i ∉ flushed h e := by
      intro i hi
      rw [hf] at hi
      cases hi
    by_cases he : e = .sendThrew
    · subst he
      have hsame : ∀ i, ((prepared T h .sendThrew).subs i).closed = (h.subs i).closed ∧
          ((prepared T h .sendThrew).subs i).queue = (h.subs i).queue := by
        intro i
        simp only [prepared, step]
        split
        · rename_i k n stack hs
          show ((Hub.setSub _ k _).subs i).closed = _ ∧ ((Hub.setSub _ k _).subs i).queue = _
          rw [setSub_sub]
          split_ifs with hik
          · rw [hik]
            exact ⟨rfl, rfl⟩
          · exact ⟨rfl, rfl⟩
        · exact ⟨rfl, rfl⟩
      constructor
      · intro hall i _ hc hq
        exact hall i ((hsame i).1.trans hc) (by rw [(hsame i).2]; exact hq)
      · intro hguard i hc hq
        by_cases hi : i ∈ fails T h .sendThrew
        · exact hguard i hi ((hsame i).1.symm.trans hc) (by rw [leftover, ← (hsame i).2]; exact hq)
        · exact prepared_drains T hv hb hd _ i hc hq (hnone i) fun _ => hi
    · have hfails : fails T h e = none := by
        cases e with
        | sendThrew => exact absurd rfl he
        | _ => simp only [fails, hf, Option.filter_none]
      refine iff_of_true (fun i hc hq => ?_) fun i hi => ?_
      · exact prepared_drains T hv hb hd e i hc hq (hnone i) fun h => absurd h he
      · rw [hfails] at hi
        cases hi
  | some k =>
    have hmem : k ∈ flushed h e := by rw [hf]; rfl
    have he : e ≠ .sendThrew := by
      rintro rfl
      cases hf
    obtain ⟨hsubs, -, -, -⟩ := prepared_same T hmem
    have hothers : ∀ i ≠ k, ((prepared T h e).subs i).closed = false →
        ((prepared T h e).subs i).queue ≠ [] → WillDrain (prepared T h e) i := by
      intro i hik hc hq
      refine prepared_drains T hv hb hd e i hc hq ?_ fun h => absurd h he
      rw [hf]
      simpa using Ne.symm hik
    have hfails : fails T h e = (some k).filter fun i => !decide (Sends T h i) := by
      cases e with
      | sendThrew => exact absurd rfl he
      | _ => simp only [fails, hf]
    have hleft : leftover h e k = (h.subs k).queue.drop (h.subs k).maxBatch := by
      cases e with
      | sendThrew => exact absurd rfl he
      | _ => rfl
    show Drained (flushSubscriber T (prepared T h e) k) ↔ _
    rw [flush_drained_iff T hr.valid k hothers, sends_prepared T hmem, hsubs, hfails]
    constructor
    · intro hguard i hi
      obtain ⟨hki, hnot⟩ := Option.mem_filter_iff.mp hi
      cases hki
      rw [hleft]
      exact hguard (by simpa using hnot)
    · intro hguard hnot
      have hk : k ∈ (some k).filter fun i => !decide (Sends T h i) :=
        Option.mem_filter_iff.mpr ⟨rfl, by simpa using hnot⟩
      rw [← hleft]
      exact hguard k hk

/-- **Nothing queued is forgotten, exactly when no failing flush strands it.** On a
hub that batches, in every state of a run every live subscriber with queued messages
has something that will drain it, if and only if no flush of the run whose batch
cannot be encoded or whose `send` throws leaves messages queued with nothing else to
drain them. -/
theorem drained_iff_none_stranded {codec : Codec J} {o : Options} {objects : ℕ → Option J}
    {h : Hub J} (hnew : newWith codec o objects = .ok h) (hbatch : o.batch = true)
    (es : List (Event J)) :
    Always (step T) Drained h es ↔ Meets (step T) (NoneStranded T) h es := by
  obtain ⟨hv, hb, -, hqueue, -, -⟩ := new_valid hnew
  apply always_iff_meets (Q := fun h => Valid h ∧ h.batch = true)
    (fun s e hs => ⟨valid_step T hs.1 e, (step_changes T hs.1 e).2.2.trans hs.2⟩)
    (fun s e hs hd => drained_step_iff T hs.1 hs.2 hd e) ⟨hv, hb.trans hbatch⟩
  intro i _ hq
  exact absurd (hqueue i) hq

end

open MessageCodec (digitText)

/-- A `send` throws with nothing left in the queue. -/
theorem drained_throw : ∃ h, newWith .json {} (fun _ => none) = .ok h ∧
    Always (step digitText) Drained h
      [.subscribe "t" {} 1, .publish "t" (.prim 7) false none true,
        .publish "t" (.prim 8) false none true, .microtask, .turn, .sendThrew, .turn] :=
  ⟨_, rfl, (drained_iff_none_stranded digitText
    (show newWith .json {} (fun _ => none) = .ok _ from rfl) rfl _).mpr (by decide +kernel)⟩

/-- Two messages, one a batch: `send` throws on the first, and the second stays
queued with no flush scheduled and no send in flight. -/
theorem throw_strands : ∃ h, newWith .json {} (fun _ => none) = .ok h ∧
    let h' := run (step digitText) h
      [.subscribe "t" { maxBatch := 1 } 1, .publish "t" (.prim 7) false none true,
        .publish "t" (.prim 8) false none true, .microtask, .turn, .sendThrew, .turn]
    h'.stack.length = 0 ∧ ¬ Pending h' ∧ (∀ i < h'.nextSub, sending h' i = 0) ∧
      (h'.subs 0).closed = false ∧ (h'.subs 0).queue.map (·.message) = [.prim 8] ∧ ¬ Drained h' := by
  refine ⟨_, rfl, by decide +kernel, ?_, by decide +kernel, by decide +kernel, by decide +kernel, ?_⟩
  · unfold Pending
    decide +kernel
  · intro hd
    have hwill := hd 0 (by decide +kernel) (by decide +kernel)
    exact absurd hwill (by decide +kernel)

end PerformanceHelpers.RealtimeHub
