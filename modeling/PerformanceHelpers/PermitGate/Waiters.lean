import PerformanceHelpers.PermitGate

/- The waiters of a `PowerPermitGate` that have been aborted: they stay in the queue until it is
   served up to them, and are counted until then.

   What is proved:
     `honest_iff_heard` — in every run of a gate, the count is that of the cancelled entries in
     the queue, so that `pending` is the number of live waiters and `isFull` compares that
     number with the limit, exactly when no signal aborts to which an entry listens that has
     left the queue. `reset` leaves such entries: it rejects them, and they go on listening. -/
namespace PerformanceHelpers.PermitGate.Waiters

/-- A call of a gate's methods, or an abort. -/
inductive Event where
  | call (e : PermitGate.Event)
  | release (count : ℤ)
  | reset (available : Option ℤ)
  deriving DecidableEq, Repr

def step (g : Gate) : Event → Gate
  | .call e => PermitGate.step g e
  | .release count => (release g count).1
  | .reset available => reset g available

def cancelled (g : Gate) : List ℕ := g.waiters.filter fun i => (g.entries i).cancelled

def live (g : Gate) : ℤ := (g.waiters.filter fun i => !(g.entries i).cancelled).length

/-- `_cancelledWaiters`, `pending` and `isFull` are what they are said to be. -/
structure Honest (g : Gate) : Prop where
  counted : g.cancelledWaiters = (cancelled g).length
  pending : g.pending = live g
  isFull : g.isFull = true ↔ ∃ limit, g.queueCapacity = some limit ∧ limit ≤ live g

/-- No entry that has left the queue listens to a signal that aborts. -/
def Heard (g : Gate) : Event → Prop
  | .call (.abort signal) => g.aborted signal = false → ∀ i ∈ listeners g signal, i ∈ g.waiters
  | _ => True

/-- The entries of the queue are different ones that have not been served, and what listens is
neither cancelled nor served. -/
structure Listening (g : Gate) : Prop where
  nodup : g.waiters.Nodup
  lt : ∀ i ∈ g.waiters, i < g.nextEntry
  unsettled : ∀ i ∈ g.waiters, (g.entries i).settled = false
  listening : ∀ i < g.nextEntry, (g.entries i).onAbort = true →
    (g.entries i).cancelled = false ∧ (g.entries i).settled = false

/-- Entries leave the queue from its head: those that stay, and those that listen, are as they
were, and the count is kept. -/
structure Shrinks (g g' : Gate) : Prop where
  nextEntry : g'.nextEntry = g.nextEntry
  waiters : g'.waiters <:+ g.waiters
  kept : ∀ i ∈ g'.waiters, g'.entries i = g.entries i
  listening : ∀ i, (g'.entries i).onAbort = true → g'.entries i = g.entries i
  counted : g.cancelledWaiters = (cancelled g).length → g'.cancelledWaiters = (cancelled g').length

section
variable {g g₁ g' : Gate}

/-- The live and the cancelled entries are the queue. -/
theorem length_waiters (g : Gate) : (g.waiters.length : ℤ) = (cancelled g).length + live g := by
  unfold cancelled live
  rw [← Nat.cast_add, ← List.length_eq_length_filter_add]

theorem honest_iff : Honest g ↔ g.cancelledWaiters = (cancelled g).length := by
  refine ⟨fun h => h.counted, fun h => ?_⟩
  have hpending : g.pending = live g := by
    have hlength := length_waiters g
    have hlive : 0 ≤ live g := Int.natCast_nonneg _
    unfold Gate.pending
    omega
  refine ⟨h, hpending, ?_⟩
  unfold Gate.isFull
  rw [hpending]
  cases g.queueCapacity with
  | none | some limit => simp

theorem Shrinks.of_same (hnext : g'.nextEntry = g.nextEntry) (hwaiters : g'.waiters = g.waiters)
    (hentries : g'.entries = g.entries) (hcount : g'.cancelledWaiters = g.cancelledWaiters) :
    Shrinks g g' where
  nextEntry := hnext
  waiters := hwaiters ▸ List.suffix_refl _
  kept := fun i _ => congrFun hentries i
  listening := fun i _ => congrFun hentries i
  counted := by
    unfold cancelled
    rw [hwaiters, hentries, hcount]
    exact id

theorem Shrinks.trans (h : Shrinks g g₁) (h' : Shrinks g₁ g') : Shrinks g g' where
  nextEntry := h'.nextEntry.trans h.nextEntry
  waiters := h'.waiters.trans h.waiters
  kept := fun i hi => (h'.kept i hi).trans (h.kept i (h'.waiters.subset hi))
  listening := by
    intro i hi
    have hsame := h'.listening i hi
    rw [hsame] at hi ⊢
    exact h.listening i hi
  counted := fun hc => h'.counted (h.counted hc)

theorem Listening.of_shrinks (hg : Listening g) (h : Shrinks g g') : Listening g' where
  nodup := hg.nodup.sublist h.waiters.sublist
  lt := by
    intro i hi
    rw [h.nextEntry]
    exact hg.lt i (h.waiters.subset hi)
  unsettled := by
    intro i hi
    rw [h.kept i hi]
    exact hg.unsettled i (h.waiters.subset hi)
  listening := by
    intro i hi hon
    rw [h.nextEntry] at hi
    have hsame := h.listening i hon
    rw [hsame] at hon ⊢
    exact hg.listening i hi hon

theorem shrinks_compact {i : ℕ} {rest : List ℕ} (hq : g.waiters = i :: rest)
    (hc : (g.entries i).cancelled = true) :
    Shrinks g { g with cancelledWaiters := max 0 (g.cancelledWaiters - 1), waiters := rest } where
  nextEntry := rfl
  waiters := hq ▸ List.suffix_cons i rest
  kept := fun _ _ => rfl
  listening := fun _ _ => rfl
  counted := by
    intro hcount
    have hlength : (cancelled g).length = (rest.filter fun j => (g.entries j).cancelled).length + 1 := by
      simp [cancelled, hq, hc]
    show max 0 (g.cancelledWaiters - 1) = _
    unfold cancelled
    dsimp only
    omega

theorem shrinks_serveHead {i : ℕ} {rest : List ℕ} (hq : g.waiters = i :: rest)
    (hn : (i :: rest).Nodup) (hc : (g.entries i).cancelled = false) :
    Shrinks g (serveHead g i rest false) := by
  have hne : ∀ j ∈ rest, j ≠ i := fun j hj heq => (List.nodup_cons.mp hn).1 (heq ▸ hj)
  refine ⟨rfl, ?_, fun j hj => ?_, fun j hj => ?_, fun hcount => ?_⟩
  · rw [serveHead_waiters, hq]
    exact List.suffix_cons i rest
  · rw [serveHead_waiters] at hj
    exact serveHead_entries g i rest (hne j hj) false
  · refine serveHead_entries g i rest ?_ false
    rintro rfl
    simp [serveHead, grantTo, detach, makeRelease] at hj
  · have hrest : cancelled (serveHead g i rest false) = cancelled g := by
      unfold cancelled
      rw [serveHead_waiters, hq, List.filter_cons_of_neg (by rw [hc]; exact Bool.false_ne_true)]
      exact List.filter_congr fun j hj => by rw [serveHead_entries g i rest (hne j hj) false]
    rw [hrest]
    exact hcount

theorem serveLoop_shrinks (permits : ℤ) : ∀ (ws : List ℕ) (g : Gate) (served : ℤ),
    g.waiters = ws → ws.Nodup → Shrinks g (serveLoop permits false g served ws).1 := by
  intro ws
  induction ws with
  | nil => exact fun g served _ _ => Shrinks.of_same rfl rfl rfl rfl
  | cons i rest ih =>
    intro g served hq hn
    have hrest := (List.nodup_cons.mp hn).2
    simp only [serveLoop]
    split_ifs with hlt hc hw
    · exact (shrinks_compact hq hc).trans (ih _ served rfl hrest)
    · exact Shrinks.of_same rfl rfl rfl rfl
    · exact (shrinks_serveHead hq hn (Bool.eq_false_iff.mpr hc)).trans
        (ih _ _ (serveHead_waiters g i rest false) hrest)
    · exact Shrinks.of_same rfl rfl rfl rfl

theorem release_shrinks (hn : g.waiters.Nodup) (count : ℤ) : Shrinks g (release g count).1 :=
  (serveLoop_shrinks _ g.waiters g 0 rfl hn).trans (Shrinks.of_same rfl rfl rfl rfl)

theorem callRelease_shrinks (hn : g.waiters.Nodup) (lease : ℕ) : Shrinks g (callRelease g lease) := by
  unfold callRelease
  split
  · exact Shrinks.of_same rfl rfl rfl rfl
  · have hmark : Shrinks g { g with
        leases := Function.update g.leases lease { g.leases lease with released := true } } :=
      Shrinks.of_same rfl rfl rfl rfl
    refine hmark.trans (release_shrinks ?_ _)
    exact hn

/-- A call that grants what is available, or refuses, leaves the queue as it is. -/
theorem grant_shrinks (w : ℤ) : Shrinks g (grant g w) := Shrinks.of_same rfl rfl rfl rfl

theorem enqueue_keeps (hg : Listening g) (w : ℤ) (signal : Option ℕ) :
    Listening (enqueue g w signal) ∧
      (g.cancelledWaiters = (cancelled g).length →
        (enqueue g w signal).cancelledWaiters = (cancelled (enqueue g w signal)).length) := by
  have hold : ∀ i, i ≠ g.nextEntry → (enqueue g w signal).entries i = g.entries i :=
    fun i hi => Function.update_of_ne hi _ _
  have hnew : (enqueue g w signal).entries g.nextEntry = ⟨w, signal, signal.isSome, false, false⟩ :=
    Function.update_self ..
  refine ⟨⟨?_, fun i hi => ?_, fun i hi => ?_, fun i hi hon => ?_⟩, fun hcount => ?_⟩
  · refine List.Nodup.append hg.nodup (List.nodup_singleton _) ?_
    rw [List.disjoint_singleton]
    exact fun h => absurd (hg.lt _ h) (lt_irrefl _)
  · rcases List.mem_append.mp hi with hi | hi
    · exact Nat.lt_succ_of_lt (hg.lt i hi)
    · obtain rfl := List.mem_singleton.mp hi
      exact Nat.lt_succ_self _
  · rcases List.mem_append.mp hi with hi | hi
    · rw [hold i (hg.lt i hi).ne]
      exact hg.unsettled i hi
    · obtain rfl := List.mem_singleton.mp hi
      rw [hnew]
  · rcases Nat.lt_succ_iff_lt_or_eq.mp hi with hi | rfl
    · rw [hold i hi.ne] at hon ⊢
      exact hg.listening i hi hon
    · rw [hnew]
      exact ⟨rfl, rfl⟩
  · have hsame : cancelled (enqueue g w signal) = cancelled g := by
      unfold cancelled
      show (g.waiters ++ [g.nextEntry]).filter _ = _
      rw [List.filter_append, List.filter_cons_of_neg (by rw [hnew]; exact Bool.false_ne_true),
        List.filter_nil, List.append_nil]
      exact List.filter_congr fun i hi => by rw [hold i (hg.lt i hi).ne]
    rw [hsame]
    exact hcount

/-! ## Aborts -/

/-- Each listener counts its entry. -/
theorem foldl_onAbort_counts : ∀ (l : List ℕ) (g : Gate), l.Nodup →
    (∀ i ∈ l, (g.entries i).cancelled = false ∧ (g.entries i).settled = false) →
    (l.foldl onAbort g).cancelledWaiters = g.cancelledWaiters + l.length := by
  intro l
  induction l with
  | nil => exact fun g _ _ => (add_zero _).symm
  | cons i l ih =>
    intro g hn hlive
    obtain ⟨hi, hl⟩ := List.nodup_cons.mp hn
    have hfirst : (onAbort g i).cancelledWaiters = g.cancelledWaiters + 1 := by
      unfold onAbort
      rw [if_neg (by simp [hlive i List.mem_cons_self])]
      rfl
    have hrest : ∀ j ∈ l, ((onAbort g i).entries j).cancelled = false ∧
        ((onAbort g i).entries j).settled = false := by
      intro j hj
      have hji : j ≠ i := fun h => hi (h ▸ hj)
      rw [onAbort_entries, Function.update_of_ne hji]
      exact hlive j (List.mem_cons_of_mem _ hj)
    rw [List.foldl_cons, ih _ hl hrest, hfirst, List.length_cons]
    push_cast
    omega

theorem mem_listeners {signal i : ℕ} :
    i ∈ listeners g signal ↔ i < g.nextEntry ∧ (g.entries i).onAbort = true ∧
      (g.entries i).signal = some signal := by
  simp [listeners]

/-- Of the entries that listen, as many are in the queue as there are exactly when all are. -/
theorem length_heard {ws l : List ℕ} (hws : ws.Nodup) (hl : l.Nodup) :
    (ws.filter fun i => decide (i ∈ l)).length = l.length ↔ ∀ i ∈ l, i ∈ ws := by
  have hperm : (ws.filter fun i => decide (i ∈ l)).Perm (l.filter fun i => decide (i ∈ ws)) := by
    refine (List.perm_ext_iff_of_nodup (hws.filter _) (hl.filter _)).mpr fun i => ?_
    simp only [List.mem_filter, decide_eq_true_eq]
    exact and_comm
  rw [hperm.length_eq, List.length_filter_eq_length_iff]
  simp

/-- Elements of two kinds are counted together. -/
theorem length_filter_or {p q : ℕ → Bool} : ∀ (ws : List ℕ), (∀ i ∈ ws, q i = true → p i = false) →
    (ws.filter fun i => p i || q i).length = (ws.filter p).length + (ws.filter q).length := by
  intro ws
  induction ws with
  | nil => exact fun _ => rfl
  | cons i ws ih =>
    intro h
    have hws := ih fun j hj => h j (List.mem_cons_of_mem _ hj)
    have hi := h i List.mem_cons_self
    cases hp : p i with
    | false =>
      cases hq : q i with
      | false => simpa [hp, hq] using hws
      | true =>
        simp only [List.filter_cons, hp, hq, Bool.or_true, if_true, List.length_cons,
          Bool.false_eq_true, if_false]
        omega
    | true =>
      have hq : q i = false := Bool.eq_false_iff.mpr fun hq => by
        rw [hp] at hi
        exact nomatch hi hq
      simp only [List.filter_cons, hp, hq, Bool.true_or, if_true, List.length_cons,
        Bool.false_eq_true, if_false]
      omega

theorem length_cancelled_abort (hg : Listening g) {signal : ℕ} (ha : g.aborted signal = false) :
    (cancelled (abort g signal)).length = (cancelled g).length +
      (g.waiters.filter fun i => decide (i ∈ listeners g signal)).length := by
  let g₁ : Gate := { g with aborted := Function.update g.aborted signal true }
  have hab : abort g signal = (listeners g signal).foldl onAbort g₁ := by
    rw [abort, if_neg (by simp [ha])]
  obtain ⟨c, hsame⟩ := foldl_onAbort_same (listeners g signal) g₁
  have hwaiters : (abort g signal).waiters = g.waiters := by rw [hab, hsame]
  have hentry : ∀ i, ((abort g signal).entries i).cancelled =
      ((g.entries i).cancelled || decide (i ∈ listeners g signal)) := by
    intro i
    rw [hab, foldl_onAbort_entries]
    split
    · next hi =>
      obtain ⟨hlt, hon, -⟩ := mem_listeners.mp hi
      obtain ⟨hc, hs⟩ := hg.listening i hlt hon
      have hcancel : (g.entries i).cancel.cancelled = true := by simp [Entry.cancel, hc, hs]
      rw [show g₁.entries i = g.entries i from rfl, hcancel, decide_eq_true hi, Bool.or_true]
    · next hi => rw [decide_eq_false hi, Bool.or_false]
  have hdisjoint : ∀ i ∈ g.waiters, i ∈ listeners g signal → (g.entries i).cancelled = false := by
    intro i _ hi
    obtain ⟨hlt, hon, -⟩ := mem_listeners.mp hi
    exact (hg.listening i hlt hon).1
  unfold cancelled
  rw [hwaiters, List.filter_congr fun i _ => hentry i]
  exact length_filter_or g.waiters fun i hi hl => hdisjoint i hi (of_decide_eq_true hl)

theorem abort_counted_iff (hg : Listening g) (hcount : g.cancelledWaiters = (cancelled g).length)
    {signal : ℕ} (ha : g.aborted signal = false) :
    (abort g signal).cancelledWaiters = (cancelled (abort g signal)).length ↔
      ∀ i ∈ listeners g signal, i ∈ g.waiters := by
  have hn : (listeners g signal).Nodup := List.nodup_range.filter _
  have habort : (abort g signal).cancelledWaiters = g.cancelledWaiters + (listeners g signal).length := by
    rw [abort, if_neg (by simp [ha])]
    refine foldl_onAbort_counts _ _ hn fun i hi => ?_
    obtain ⟨hlt, hon, -⟩ := mem_listeners.mp hi
    exact hg.listening i hlt hon
  rw [habort, hcount, length_cancelled_abort hg ha, ← length_heard hg.nodup hn]
  push_cast
  constructor
  · intro h
    omega
  · intro h
    omega

theorem abort_listening (hg : Listening g) (signal : ℕ) : Listening (abort g signal) := by
  unfold abort
  split
  · exact hg
  · let g₁ : Gate := { g with aborted := Function.update g.aborted signal true }
    obtain ⟨c, hsame⟩ := foldl_onAbort_same (listeners g signal) g₁
    have hentry : ∀ i, ((listeners g signal).foldl onAbort g₁).entries i =
        if i ∈ listeners g signal then (g.entries i).cancel else g.entries i :=
      fun i => foldl_onAbort_entries _ g₁ i
    have hwaiters : ((listeners g signal).foldl onAbort g₁).waiters = g.waiters := by rw [hsame]
    have hnext : ((listeners g signal).foldl onAbort g₁).nextEntry = g.nextEntry := by rw [hsame]
    refine ⟨?_, fun i hi => ?_, fun i hi => ?_, fun i hi hon => ?_⟩
    · rw [hwaiters]
      exact hg.nodup
    · rw [hwaiters] at hi
      rw [hnext]
      exact hg.lt i hi
    · rw [hwaiters] at hi
      rw [hentry]
      split
      · unfold Entry.cancel
        split
        · exact hg.unsettled i hi
        · exact hg.unsettled i hi
      · exact hg.unsettled i hi
    · rw [hnext] at hi
      rw [hentry] at hon ⊢
      split at hon
      · next hl =>
        obtain ⟨-, hon', -⟩ := mem_listeners.mp hl
        obtain ⟨hc, hs⟩ := hg.listening i hi hon'
        simp [Entry.cancel, hc, hs] at hon
      · next hl =>
        rw [if_neg hl]
        exact hg.listening i hi hon

/-! ## Runs -/

theorem new_listening {o : Options} (h : new o = .ok g) :
    Listening g ∧ g.cancelledWaiters = (cancelled g).length := by
  unfold new at h
  obtain ⟨capacity, -, h⟩ := bind_eq_ok.mp h
  obtain ⟨queueCapacity, -, h⟩ := bind_eq_ok.mp h
  obtain ⟨tokens, -, h⟩ := bind_eq_ok.mp h
  cases h
  exact ⟨⟨List.nodup_nil, fun _ hi => (nomatch hi), fun _ hi => (nomatch hi),
    fun _ hi => absurd hi (Nat.not_lt_zero _)⟩, rfl⟩

theorem call_keeps (hg : Listening g) (e : PermitGate.Event) (he : ∀ signal, e ≠ .abort signal) :
    Listening (PermitGate.step g e) ∧ (g.cancelledWaiters = (cancelled g).length →
      (PermitGate.step g e).cancelledWaiters = (cancelled (PermitGate.step g e)).length) := by
  have hof : ∀ {g' : Gate}, Shrinks g g' → Listening g' ∧ (g.cancelledWaiters = (cancelled g).length →
      g'.cancelledWaiters = (cancelled g').length) := fun h => ⟨hg.of_shrinks h, h.counted⟩
  have hsame : Shrinks g g := Shrinks.of_same rfl rfl rfl rfl
  cases e with
  | acquire weight signal =>
    simp only [PermitGate.step, acquire]
    split
    · exact hof hsame
    · split_ifs
      · exact hof hsame
      · exact hof hsame
      · exact hof (grant_shrinks _)
      · exact hof hsame
      · exact enqueue_keeps hg _ signal
  | tryAcquire weight =>
    simp only [PermitGate.step, tryAcquire]
    split
    · exact hof hsame
    · split_ifs
      · exact hof (grant_shrinks _)
      · exact hof hsame
  | callRelease lease => exact hof (callRelease_shrinks hg.nodup lease)
  | abort signal => exact absurd rfl (he signal)

theorem Listening.of_step (hg : Listening g) (e : Event) : Listening (step g e) := by
  cases e with
  | call e =>
    cases e with
    | abort signal => exact abort_listening hg signal
    | acquire weight signal => exact (call_keeps hg (.acquire weight signal) fun _ h => nomatch h).1
    | tryAcquire weight => exact (call_keeps hg (.tryAcquire weight) fun _ h => nomatch h).1
    | callRelease lease => exact (call_keeps hg (.callRelease lease) fun _ h => nomatch h).1
  | release count => exact hg.of_shrinks (release_shrinks hg.nodup count)
  | reset available =>
    exact ⟨List.nodup_nil, fun _ hi => (nomatch hi), fun _ hi => (nomatch hi), hg.listening⟩

theorem honest_step_iff (hg : Listening g) (h : Honest g) (e : Event) : Honest (step g e) ↔ Heard g e := by
  have hcount := honest_iff.mp h
  rw [honest_iff]
  cases e with
  | call e =>
    cases e with
    | abort signal =>
      cases ha : g.aborted signal with
      | true =>
        have hsame : step g (.call (.abort signal)) = g := by
          show abort g signal = g
          rw [abort, if_pos ha]
        rw [hsame]
        exact iff_of_true hcount fun h => absurd (ha.symm.trans h) Bool.noConfusion
      | false =>
        refine (abort_counted_iff hg hcount ha).trans ⟨fun h _ => h, fun h => h ha⟩
    | acquire weight signal =>
      exact iff_of_true ((call_keeps hg (.acquire weight signal) fun _ => by simp).2 hcount) trivial
    | tryAcquire weight =>
      exact iff_of_true ((call_keeps hg (.tryAcquire weight) fun _ => by simp).2 hcount) trivial
    | callRelease lease =>
      exact iff_of_true ((call_keeps hg (.callRelease lease) fun _ => by simp).2 hcount) trivial
  | release count => exact iff_of_true ((release_shrinks hg.nodup count).counted hcount) trivial
  | reset available => exact iff_of_true rfl trivial

end

/-- In every run of a gate, `_cancelledWaiters` is the number of cancelled entries in the queue,
so that `pending` is the number of live waiters and `isFull` compares that with the limit, exactly
when no signal aborts to which an entry listens that has left the queue. -/
theorem honest_iff_heard {o : Options} {g : Gate} (hg : new o = .ok g) (es : List Event) :
    Always step Honest g es ↔ Meets step Heard g es := by
  have hstep : ∀ (g : Gate) (e : Event), Listening g → Honest g → (Honest (step g e) ↔ Heard g e) :=
    fun _ e hlistening h => honest_step_iff hlistening h e
  obtain ⟨hlistening, hcount⟩ := new_listening hg
  exact always_iff_meets (fun _ e h => h.of_step e) hstep hlistening (honest_iff.mpr hcount)

/-- A waiter is aborted and another served in its place. -/
theorem honest_iff_heard_abort : ∃ g, new { capacity := some 1 } = .ok g ∧
    (Always step Honest g [.call (.acquire none none), .call (.acquire none (some 0)),
      .call (.acquire none none), .call (.abort 0), .release 1] ↔
    Meets step Heard g [.call (.acquire none none), .call (.acquire none (some 0)),
      .call (.acquire none none), .call (.abort 0), .release 1]) :=
  ⟨_, rfl, honest_iff_heard (o := { capacity := some 1 }) rfl _⟩

/-- A waiter that a reset has rejected is aborted, and is taken for one that is in the queue: the
next waiter does not fill it. -/
theorem abort_after_reset : ∃ g, new { capacity := some 1, queueCapacity := some 1 } = .ok g ∧
    ¬ Always step Honest g [.call (.acquire none none), .call (.acquire none (some 0)), .reset none,
      .call (.abort 0), .call (.acquire none none)] := by
  refine ⟨_, rfl, fun h => ?_⟩
  have hcount := h.last.counted
  revert hcount
  decide

end PerformanceHelpers.PermitGate.Waiters
