import PerformanceHelpers.PowerPool.Steps

/- What the abort of a signal settles in a `PowerPool` (`src/helpers/powerPool.js`,
   `_dispatchToWorker` and `_enqueueOrReject`).

   A listener closes over the correlation id of a request, and is not removed when the
   request is settled. `_postToWorkerObj` installs none where it posts past the wrapper,
   the round-robin branch hands no signal on, and `_enqueueOrReject` installs none for an
   empty id. A queued item whose signal has aborted stays in the queue, and is answered
   under its id when it is discarded.

   What is proved:
     1. `Heard.aborts` — where every pending request is listened for under its own id
        and nothing else is under it, an abort rejects the requests of its signal, and
        nobody else's.
     2. `aborts_precisely` — every run keeps it that way whose requests take a branch that
        listens, under ids that nothing left behind listens or is queued for. -/
namespace PerformanceHelpers.PowerPool

variable {V : Type} {W : World} {T : ObjectText V} {A : Allowed V} {c c' : Pool V}

/-! ## What is claimed of an abort -/

/-- If the signal aborts now, the requests made with it that are not settled are rejected
with its reason, and nothing else is settled. -/
def AbortsOwn (c : Pool V) (s : ℕ) : Prop :=
  ∀ n r, (n, r) ∈ (c.abort s).settled ↔
    (n, r) ∈ c.settled ∨ r = .aborted s ∧ (n, s) ∈ c.signals ∧ ∀ r', (n, r') ∉ c.settled

/-- An abort settles the requests of its signal at once, and no other at any time. -/
structure AbortsPrecisely (c : Pool V) : Prop where
  now : ∀ s, s ∉ c.aborted → AbortsOwn c s
  reasons : ∀ n s, (n, .aborted s) ∈ c.settled → (n, s) ∈ c.signals

/-! ## The books of promises -/

/-- A pending request has a key and a promise of its own, which is not settled; a request
made with a signal is pending or settled. -/
structure Booked (c : Pool V) : Prop where
  keys : (c.pending.map (·.key)).Nodup
  promises : (c.pending.map (·.promise)).Nodup
  made : ∀ e ∈ c.pending, e.promise < c.nextPromise
  settledMade : ∀ p ∈ c.settled, p.1 < c.nextPromise
  signalsMade : ∀ p ∈ c.signals, p.1 < c.nextPromise
  unsettled : ∀ e ∈ c.pending, ∀ r, (e.promise, r) ∉ c.settled
  answered : ∀ p ∈ c.signals, (∃ r, (p.1, r) ∈ c.settled) ∨ ∃ e ∈ c.pending, e.promise = p.1

/-- The requests of a signal are listened for, but for one that is being made, and a
listener or a queued item with a signal finds no request of another under its key. -/
structure Heard (but : Option ℕ) (c : Pool V) : Prop extends Booked c where
  owned : ∀ l ∈ c.listeners, Owned c l.1 l.2
  live : ∀ l ∈ c.listeners, l.1 ∉ c.aborted
  queued : ∀ item ∈ c.queue, ∀ s ∈ item.signal, ∀ key ∈ item.correlationId, Owned c s key
  heard : ∀ e ∈ c.pending, some e.promise ≠ but → ∀ s, (e.promise, s) ∈ c.signals →
    (s, e.key) ∈ c.listeners
  reasons : ∀ n s, (n, .aborted s) ∈ c.settled → (n, s) ∈ c.signals

variable {but : Option ℕ}

variable {o : PostOptions} {key : String} {s : ℕ} {signal : Option ℕ}

theorem Owned.mono (h : Owned c s key)
    (hpending : ∀ e ∈ c'.pending, ∃ e' ∈ c.pending, e'.key = e.key ∧ e'.promise = e.promise)
    (hsignals : ∀ p ∈ c.signals, p ∈ c'.signals) : Owned c' s key := by
  intro e he hkey
  obtain ⟨e', he', hkey', hpromise⟩ := hpending e he
  rw [← hpromise]
  exact hsignals _ (h e' he' (hkey'.trans hkey))

theorem Entries.owned (he : Entries c c') (h : Owned c s key) : Owned c' s key :=
  h.mono he.1 fun _ hp => he.2.1 ▸ hp

/-- Of an entry, only its key and its promise matter, and that it is there. -/
theorem Heard.of_eq (hc : Heard but c) (hqueue : c'.queue = c.queue) (hpending : c'.pending = c.pending)
    (hlisteners : c'.listeners = c.listeners) (haborted : c'.aborted = c.aborted)
    (hnext : c'.nextPromise = c.nextPromise) (hsettled : c'.settled = c.settled)
    (hsignals : c'.signals = c.signals) : Heard but c' := by
  have howned : ∀ s key, Owned c s key → Owned c' s key := fun s key h =>
    h.mono (fun e he => ⟨e, hpending ▸ he, rfl, rfl⟩) fun p hp => hsignals ▸ hp
  constructor
  · constructor
    · rw [hpending]
      exact hc.keys
    · rw [hpending]
      exact hc.promises
    · rw [hpending, hnext]
      exact hc.made
    · rw [hsettled, hnext]
      exact hc.settledMade
    · rw [hsignals, hnext]
      exact hc.signalsMade
    · rw [hpending, hsettled]
      exact hc.unsettled
    · rw [hpending, hsettled, hsignals]
      exact hc.answered
  · intro l hl
    exact howned _ _ (hc.owned l (hlisteners ▸ hl))
  · rw [hlisteners, haborted]
    exact hc.live
  · intro item hitem s hs key hkey
    exact howned _ _ (hc.queued item (hqueue ▸ hitem) s hs key hkey)
  · rw [hpending, hsignals, hlisteners]
    exact hc.heard
  · rw [hsettled, hsignals]
    exact hc.reasons

theorem SameTasks.heard (h : SameTasks c c') (hc : Heard but c) : Heard but c' :=
  hc.of_eq h.queue h.pending h.listeners h.aborted h.nextPromise h.settled h.signals

theorem Booked.mem_settlementOf (hc : Booked c) (key : String) (s r : Settlement) (n : ℕ) :
    (n, r) ∈ settlementOf c key s ↔ r = s ∧ ∃ e ∈ c.pending, e.key = key ∧ e.promise = n := by
  unfold settlementOf
  cases hentry : c.entryFor? key with
  | none =>
    have hnone : ∀ e ∈ c.pending, e.key ≠ key := fun e he => by
      simpa using List.find?_eq_none.mp hentry e he
    constructor
    · exact fun h => absurd h List.not_mem_nil
    · rintro ⟨-, e, he, hkey, -⟩
      exact absurd hkey (hnone e he)
  | some e =>
    have hmem : e ∈ c.pending := List.mem_of_find?_eq_some hentry
    have hkey : e.key = key := by simpa using List.find?_some hentry
    simp only [Option.map_some, Option.toList_some, List.mem_singleton, Prod.mk.injEq]
    constructor
    · rintro ⟨rfl, rfl⟩
      exact ⟨rfl, e, hmem, hkey, rfl⟩
    · rintro ⟨rfl, e', hmem', hkey', rfl⟩
      obtain rfl := List.inj_on_of_nodup_map hc.keys hmem' hmem (hkey'.trans hkey.symm)
      exact ⟨rfl, rfl⟩

theorem Booked.cleanup (hc : Booked c) (key : String) (s : Settlement) :
    Booked (c.cleanupPendingResponse key s) := by
  have hsettlement (n : ℕ) (r : Settlement) := hc.mem_settlementOf key s r n
  rw [cleanupPendingResponse_eq]
  constructor
  · exact hc.keys.sublist (List.filter_sublist.map _)
  · exact hc.promises.sublist (List.filter_sublist.map _)
  · exact fun e he => hc.made e (List.mem_filter.mp he).1
  · intro p hp
    rcases List.mem_append.mp hp with hp | hp
    · exact hc.settledMade p hp
    · obtain ⟨-, e, he, -, hn⟩ := (hsettlement p.1 p.2).mp hp
      rw [← hn]
      exact hc.made e he
  · exact hc.signalsMade
  · intro e he r hr
    obtain ⟨hmem, hne⟩ := List.mem_filter.mp he
    rcases List.mem_append.mp hr with hr | hr
    · exact hc.unsettled e hmem r hr
    · obtain ⟨-, e', he', hkey, hpromise⟩ := (hsettlement e.promise r).mp hr
      obtain rfl := List.inj_on_of_nodup_map hc.promises he' hmem hpromise
      simp [hkey] at hne
  · intro p hp
    rcases hc.answered p hp with ⟨r, hr⟩ | ⟨e, he, hn⟩
    · exact Or.inl ⟨r, List.mem_append_left _ hr⟩
    · by_cases hkey : e.key = key
      · exact Or.inl ⟨s, List.mem_append_right _ ((hsettlement p.1 s).mpr ⟨rfl, e, he, hkey, hn⟩)⟩
      · exact Or.inr ⟨e, List.mem_filter.mpr ⟨he, bne_iff_ne.mpr hkey⟩, hn⟩

section
variable (hc : Heard but c)
include hc

theorem Heard.cleanup (key : String) (s : Settlement)
    (hs : ∀ g, s = .aborted g → Owned c g key) : Heard but (c.cleanupPendingResponse key s) := by
  have hbooked := hc.toBooked.cleanup key s
  have hentries := entries_cleanup c key s
  have hsettlement (n : ℕ) (r : Settlement) :=
    hc.toBooked.mem_settlementOf key s r n
  rw [cleanupPendingResponse_eq] at hbooked hentries ⊢
  refine ⟨hbooked, ?_, hc.live, ?_, ?_, ?_⟩
  · exact fun l hl => hentries.owned (hc.owned l hl)
  · exact fun item hitem s hs key hkey => hentries.owned (hc.queued item hitem s hs key hkey)
  · exact fun e he => hc.heard e (List.mem_filter.mp he).1
  · intro n g hg
    rcases List.mem_append.mp hg with hg | hg
    · exact hc.reasons n g hg
    · obtain ⟨hr, e, he, hkey, rfl⟩ := (hsettlement n (.aborted g)).mp hg
      exact hs g hr.symm e he hkey

theorem Heard.marked (key : Option String) (id : ℕ) :
    Heard but { c with pending := Pool.markEntries key id c.pending } := by
  have hmap {α : Type} (f : Entry → α) (hf : ∀ e w, f { e with workerId := w } = f e) :
      (Pool.markEntries key id c.pending).map f = c.pending.map f := by
    cases key with
    | none => rfl
    | some k =>
      unfold Pool.markEntries
      rw [List.map_map]
      apply List.map_congr_left
      intro e _
      simp only [Function.comp_apply]
      split
      · exact hf e _
      · rfl
  have howned : ∀ s k, Owned c s k → Owned { c with pending := Pool.markEntries key id c.pending } s k :=
    fun s k h => h.mono (fun e he => mem_markEntries he) fun p hp => hp
  constructor
  · constructor
    · rw [hmap Entry.key fun _ _ => rfl]
      exact hc.keys
    · rw [hmap Entry.promise fun _ _ => rfl]
      exact hc.promises
    · intro e he
      obtain ⟨e', he', -, hpromise⟩ := mem_markEntries he
      rw [← hpromise]
      exact hc.made e' he'
    · exact hc.settledMade
    · exact hc.signalsMade
    · intro e he
      obtain ⟨e', he', -, hpromise⟩ := mem_markEntries he
      rw [← hpromise]
      exact hc.unsettled e' he'
    · intro p hp
      rcases hc.answered p hp with h | ⟨e, he, hn⟩
      · exact Or.inl h
      · have hmem : p.1 ∈ (Pool.markEntries key id c.pending).map Entry.promise := by
          rw [hmap Entry.promise fun _ _ => rfl]
          exact List.mem_map.mpr ⟨e, he, hn⟩
        exact Or.inr (List.mem_map.mp hmem)
  · exact fun l hl => howned _ _ (hc.owned l hl)
  · exact hc.live
  · exact fun item hitem s hs k hk => howned _ _ (hc.queued item hitem s hs k hk)
  · intro e he hbut s hs
    obtain ⟨e', he', hkey, hpromise⟩ := mem_markEntries he
    rw [← hpromise] at hbut hs
    rw [← hkey]
    exact hc.heard e' he' hbut s hs
  · exact hc.reasons

theorem Heard.recordPost (p : Post V) (key : Option String) (busy : Bool) :
    Heard but (c.recordPost p key busy) := by
  obtain ⟨ws, bs, bt, h⟩ := recordPost_eq c p key busy
  rw [h]
  exact (hc.marked key p.worker).of_eq rfl rfl rfl rfl rfl rfl rfl

theorem Heard.listen (hs : s ∉ c.aborted) (h : Owned c s key) :
    Heard but { c with listeners := c.listeners ++ [(s, key)] } := by
  refine ⟨{ hc with },
    ?_, ?_, hc.queued, ?_, hc.reasons⟩
  · intro l hl
    rcases List.mem_append.mp hl with hl | hl
    · exact hc.owned l hl
    · obtain rfl := List.mem_singleton.mp hl
      exact h
  · intro l hl
    rcases List.mem_append.mp hl with hl | hl
    · exact hc.live l hl
    · obtain rfl := List.mem_singleton.mp hl
      exact hs
  · exact fun e he hbut s hs => List.mem_append_left _ (hc.heard e he hbut s hs)

theorem Heard.listenForAbort {key : Option String}
    (h : ∀ s ∈ signal, ∀ k ∈ key, Owned c s k) : Heard but (c.listenForAbort signal key) := by
  unfold Pool.listenForAbort
  split
  · next s k =>
    have howned := h s rfl k rfl
    split
    · refine hc.cleanup _ _ fun g hg => ?_
      cases hg
      exact howned
    · next hs => exact hc.listen hs howned
  · exact hc

theorem Heard.dequeue {rest : List (QueueItem V)} (h : ∀ item ∈ rest, item ∈ c.queue) :
    Heard but { c with queue := rest } :=
  ⟨{ hc with },
    hc.owned, hc.live, fun item hitem => hc.queued item (h item hitem), hc.heard, hc.reasons⟩

theorem Heard.enqueue {item : QueueItem V}
    (h : ∀ s ∈ item.signal, ∀ key ∈ item.correlationId, s ∉ c.aborted ∧ Owned c s key) :
    Heard but (c.enqueue item) := by
  have hqueued : Heard but { c with queue := c.queue ++ [item], enqueued := c.enqueued ++ [item] } := by
    refine ⟨{ hc with },
      hc.owned, hc.live, ?_, hc.heard, hc.reasons⟩
    intro item' hitem s hs key hkey
    rcases List.mem_append.mp hitem with hitem | hitem
    · exact hc.queued item' hitem s hs key hkey
    · obtain rfl := List.mem_singleton.mp hitem
      exact (h s hs key hkey).2
  unfold Pool.enqueue
  cases hsignal : item.signal with
  | none => exact hqueued.of_eq rfl rfl rfl rfl rfl rfl rfl
  | some s =>
    cases hkey : item.correlationId with
    | none => exact hqueued.of_eq rfl rfl rfl rfl rfl rfl rfl
    | some key =>
      obtain ⟨hs, howned⟩ := h s hsignal key hkey
      exact hqueued.listen hs howned

/-! ## Requests that are made -/

theorem Heard.makeSettled (signals : List ℕ) (r : Settlement)
    (h : ∀ g, r = .aborted g → g ∈ signals) :
    Heard but { c with
      nextPromise := c.nextPromise + 1
      signals := c.signals ++ signals.map (c.nextPromise, ·)
      settled := c.settled ++ [(c.nextPromise, r)] } := by
  have hsignals : ∀ p ∈ c.signals ++ signals.map (c.nextPromise, ·),
      p ∈ c.signals ∨ p.1 = c.nextPromise := by
    intro p hp
    rcases List.mem_append.mp hp with hp | hp
    · exact Or.inl hp
    · obtain ⟨s, -, rfl⟩ := List.mem_map.mp hp
      exact Or.inr rfl
  have howned : ∀ s key, Owned c s key → Owned { c with
      nextPromise := c.nextPromise + 1
      signals := c.signals ++ signals.map (c.nextPromise, ·)
      settled := c.settled ++ [(c.nextPromise, r)] } s key := fun s key h =>
    h.mono (fun e he => ⟨e, he, rfl, rfl⟩) fun p hp => List.mem_append_left _ hp
  constructor
  · constructor
    · exact hc.keys
    · exact hc.promises
    · exact fun e he => Nat.lt_succ_of_lt (hc.made e he)
    · intro p hp
      rcases List.mem_append.mp hp with hp | hp
      · exact Nat.lt_succ_of_lt (hc.settledMade p hp)
      · obtain rfl := List.mem_singleton.mp hp
        exact Nat.lt_succ_self _
    · intro p hp
      rcases hsignals p hp with hp | hp
      · exact Nat.lt_succ_of_lt (hc.signalsMade p hp)
      · rw [hp]
        exact Nat.lt_succ_self _
    · intro e he r' hr
      rcases List.mem_append.mp hr with hr | hr
      · exact hc.unsettled e he r' hr
      · have hlt := hc.made e he
        rw [(Prod.mk.inj (List.mem_singleton.mp hr)).1] at hlt
        exact absurd hlt (Nat.lt_irrefl _)
    · intro p hp
      rcases hsignals p hp with hp | hp
      · rcases hc.answered p hp with ⟨r', hr⟩ | h
        · exact Or.inl ⟨r', List.mem_append_left _ hr⟩
        · exact Or.inr h
      · rw [hp]
        exact Or.inl ⟨r, List.mem_append_right _ (List.mem_singleton_self _)⟩
  · exact fun l hl => howned _ _ (hc.owned l hl)
  · exact hc.live
  · exact fun item hitem s hs key hkey => howned _ _ (hc.queued item hitem s hs key hkey)
  · intro e he hbut s hs
    rcases hsignals _ hs with hs | hs
    · exact hc.heard e he hbut s hs
    · have hlt := hc.made e he
      rw [show e.promise = c.nextPromise from hs] at hlt
      exact absurd hlt (Nat.lt_irrefl _)
  · intro n g hg
    rcases List.mem_append.mp hg with hg | hg
    · exact List.mem_append_left _ (hc.reasons n g hg)
    · obtain ⟨rfl, hr⟩ := Prod.mk.inj (List.mem_singleton.mp hg)
      exact List.mem_append_right _ (List.mem_map_of_mem (h g hr.symm))

theorem Heard.refuseAborted (o : PostOptions) (s : ℕ) :
    Heard but (c.refuseAborted o s).1 := by
  unfold Pool.refuseAborted
  split
  · refine (hc.makeSettled [s] (.aborted s) ?_).of_eq rfl rfl rfl rfl rfl rfl rfl
    rintro g ⟨⟩
    exact List.mem_singleton_self _
  · exact hc

end

/-- A request that is turned down is registered and rejected: its promise is made and settled,
and whoever waited under its key is rejected. -/
theorem turnDown_eq (c : Pool V) (key : String) (o : PostOptions) (e : String) :
    (c.register key o).cleanupPendingResponse key (.rejected e) =
      { c.cleanupPendingResponse key (.rejected s!"duplicate correlationId: {key}") with
        nextPromise := c.nextPromise + 1
        signals := c.signals ++ o.signal.toList.map (c.nextPromise, ·)
        settled := (c.cleanupPendingResponse key
          (.rejected s!"duplicate correlationId: {key}")).settled ++ [(c.nextPromise, .rejected e)] } := by
  have hnone : (c.pending.filter fun e => e.key != key).find? (·.key == key) = none := by
    rw [List.find?_eq_none]
    intro e he
    simpa using (List.mem_filter.mp he).2
  have hsettles : settlementOf (c.register key o) key (.rejected e) = [(c.nextPromise, .rejected e)] := by
    unfold settlementOf Pool.entryFor?
    rw [register_eq]
    dsimp only
    rw [List.find?_append, hnone]
    simp
  have hsignals : (o.signal.map fun s => (c.nextPromise, s)).toList =
      o.signal.toList.map (c.nextPromise, ·) := by cases o.signal <;> rfl
  rw [cleanupPendingResponse_eq, hsettles, register_eq, cleanupPendingResponse_eq, hsignals]
  dsimp only
  congr 1
  rw [List.filter_append, List.filter_filter]
  simp

theorem Heard.turnDown (hc : Heard but c) (key : String) (o : PostOptions) (e : String) :
    Heard but ((c.register key o).cleanupPendingResponse key (.rejected e)) := by
  rw [turnDown_eq]
  have hclean := hc.cleanup key (.rejected s!"duplicate correlationId: {key}")
    fun g hg => by cases hg
  have hmade := hclean.makeSettled o.signal.toList (.rejected e) fun g hg => by cases hg
  rw [cleanupPendingResponse_eq] at hmade ⊢
  exact hmade

/-- Nothing left behind listens, or is queued, under the key with another signal. -/
structure Fresh (c : Pool V) (key : String) (o : PostOptions) : Prop where
  listeners : ∀ s, (s, key) ∈ c.listeners → s ∈ o.signal
  queue : ∀ item ∈ c.queue, key ∈ item.correlationId → ∀ s ∈ item.signal, s ∈ o.signal

theorem Heard.register (hc : Heard none c) (h : Fresh c key o) :
    Heard (some c.nextPromise) (c.register key o) := by
  have hclean := hc.cleanup key (.rejected s!"duplicate correlationId: {key}")
    fun g hg => by cases hg
  have hkey : ∀ e ∈ c.pending.filter fun e => e.key != key, e.key ≠ key := fun e he => by
    simpa using (List.mem_filter.mp he).2
  rw [cleanupPendingResponse_eq] at hclean
  rw [register_eq]
  have hsignals : ∀ p ∈ c.signals ++ (o.signal.map fun s => (c.nextPromise, s)).toList,
      p ∈ c.signals ∨ p.1 = c.nextPromise := by
    intro p hp
    rcases List.mem_append.mp hp with hp | hp
    · exact Or.inl hp
    · obtain ⟨s, -, rfl⟩ := List.mem_map.mp (Option.toList_map .. ▸ hp)
      exact Or.inr rfl
  have hunsettled : ∀ p ∈ c.settled ++ settlementOf c key (.rejected s!"duplicate correlationId: {key}"),
      p.1 < c.nextPromise := hclean.settledMade
  -- the new entry is the only one under its key, and its promise is a new one
  have howned : ∀ s k, (k = key → s ∈ o.signal) → Owned c s k → Owned { c with
      pending := (c.pending.filter fun e => e.key != key) ++
        [⟨key, c.nextPromise, none, decide (0 < c.perCallTimeout o)⟩]
      settled := c.settled ++ settlementOf c key (.rejected s!"duplicate correlationId: {key}")
      nextPromise := c.nextPromise + 1
      signals := c.signals ++ (o.signal.map fun s => (c.nextPromise, s)).toList } s k := by
    intro s k hs hk e he hek
    rcases List.mem_append.mp he with he | he
    · exact List.mem_append_left _ (hk e (List.mem_filter.mp he).1 hek)
    · obtain rfl := List.mem_singleton.mp he
      refine List.mem_append_right _ ?_
      rw [show o.signal = some s from hs hek.symm]
      exact List.mem_singleton_self _
  constructor
  · constructor
    · rw [List.map_append, List.nodup_append]
      refine ⟨hclean.keys, List.nodup_singleton _, ?_⟩
      intro k hk k' hk' heq
      obtain ⟨e, he, rfl⟩ := List.mem_map.mp hk
      exact hkey e he (heq.trans (List.mem_singleton.mp hk'))
    · rw [List.map_append, List.nodup_append]
      refine ⟨hclean.promises, List.nodup_singleton _, ?_⟩
      intro n hn n' hn' heq
      obtain ⟨e, he, rfl⟩ := List.mem_map.mp hn
      have hlt := hclean.made e he
      rw [heq, List.mem_singleton.mp hn'] at hlt
      exact Nat.lt_irrefl _ hlt
    · intro e he
      rcases List.mem_append.mp he with he | he
      · exact Nat.lt_succ_of_lt (hclean.made e he)
      · obtain rfl := List.mem_singleton.mp he
        exact Nat.lt_succ_self _
    · exact fun p hp => Nat.lt_succ_of_lt (hunsettled p hp)
    · intro p hp
      rcases hsignals p hp with hp | hp
      · exact Nat.lt_succ_of_lt (hc.signalsMade p hp)
      · rw [hp]
        exact Nat.lt_succ_self _
    · intro e he r hr
      rcases List.mem_append.mp he with he | he
      · exact hclean.unsettled e he r hr
      · obtain rfl := List.mem_singleton.mp he
        exact Nat.lt_irrefl _ (hunsettled _ hr)
    · intro p hp
      rcases hsignals p hp with hp | hp
      · rcases hclean.answered p hp with h | ⟨e, he, hn⟩
        · exact Or.inl h
        · exact Or.inr ⟨e, List.mem_append_left _ he, hn⟩
      · exact Or.inr ⟨_, List.mem_append_right _ (List.mem_singleton_self _), hp.symm⟩
  · intro l hl
    refine howned _ _ ?_ (hc.owned l hl)
    rintro rfl
    exact h.listeners l.1 hl
  · exact hc.live
  · intro item hitem s hs k hk
    refine howned _ _ ?_ (hc.queued item hitem s hs k hk)
    rintro rfl
    exact h.queue item hitem hk s hs
  · intro e he hbut s hs
    rcases List.mem_append.mp he with he | he
    · rcases hsignals _ hs with hs | hs
      · exact hc.heard e (List.mem_filter.mp he).1 (Option.some_ne_none _) s hs
      · exact absurd (congrArg some hs) hbut
    · obtain rfl := List.mem_singleton.mp he
      exact absurd rfl hbut
  · exact fun n g hg => List.mem_append_left _ (hclean.reasons n g hg)

/-! ## Drains, evictions and aborts -/

theorem Heard.discard (hc : Heard but c) {item : QueueItem V} (hitem : item ∈ c.queue)
    {rest : List (QueueItem V)} (h : ∀ item ∈ rest, item ∈ c.queue) :
    Heard but ({ c with queue := rest }.discard item) := by
  have hrest := hc.dequeue h
  obtain ⟨c', hc', heq⟩ := discard_eq { c with queue := rest } item
  have hheard : Heard but c' := by
    rcases hc' with ⟨-, rfl⟩ | ⟨key, s, hkey, hs, rfl⟩
    · exact hrest
    · refine hrest.cleanup key s fun g hg => ?_
      rcases hs with ⟨e, rfl⟩ | ⟨g', hsignal, rfl⟩
      · cases hg
      · cases hg
        exact hc.queued item hitem g hsignal key hkey
  rw [heq]
  exact hheard.of_eq rfl rfl rfl rfl rfl rfl rfl

theorem Discards.heard (h : Discards c c') (hc : Heard but c) : Heard but c' := by
  induction h with
  | done c => exact hc
  | next c c' item rest hperm hdead h ih =>
    refine ih (hc.discard (hperm.mem_iff.mpr List.mem_cons_self) ?_)
    exact fun item' hitem => hperm.mem_iff.mpr (List.mem_cons_of_mem _ hitem)

theorem Heard.serve (hc : Heard but c) (drain : Drain) (id : ℕ) :
    Heard but (c.serve W T drain id).1 := by
  obtain ⟨c₁, hd, h⟩ := serve_cases W T c drain id
  have hc₁ := hd.heard hc
  rcases h with h | ⟨item, rest, c₂, hperm, -, hsame, h⟩
  · rw [h]
    exact hc₁
  · have htaken := hc₁.dequeue fun item' hitem => hperm.mem_iff.mpr (List.mem_cons_of_mem item hitem)
    have hc₂ : Heard but c₂ := hsame.heard (htaken.of_eq rfl rfl rfl rfl rfl rfl rfl)
    rcases h with h | ⟨p, -, -, -, -, -, h⟩
    · rw [h]
      exact hc₂
    · rw [h]
      refine (hc₂.recordPost p item.correlationId true).listenForAbort fun s hs key hkey => ?_
      have howned := hc₁.queued item (hperm.mem_iff.mpr List.mem_cons_self) s hs key hkey
      have hmarked : Owned c₂ s key := by
        refine howned.mono (fun e he => ⟨e, ?_, rfl, rfl⟩) fun p hp => ?_
        · rw [hsame.pending] at he
          exact he
        · rw [hsame.signals]
          exact hp
      exact (entries_recordPost c₂ p item.correlationId true).owned hmarked

theorem Heard.evict (hc : Heard but c) : Heard but c.evict := by
  unfold Pool.evict
  cases hshift : c.shift c.queue with
  | none => exact hc
  | some q =>
    obtain ⟨dropped, rest⟩ := q
    have hrest := hc.dequeue fun item hitem =>
      (shift_perm hshift).mem_iff.mpr (List.mem_cons_of_mem dropped hitem)
    dsimp only
    cases dropped.correlationId with
    | none => exact hrest.of_eq rfl rfl rfl rfl rfl rfl rfl
    | some key =>
      have hclean := hrest.cleanup key (.rejected "postMessage queued task dropped by policy")
        fun g hg => by cases hg
      exact hclean.of_eq rfl rfl rfl rfl rfl rfl rfl

/-- The requests under some keys are rejected, one after the other. -/
theorem settleEach_eq (c : Pool V) (s : Settlement) (keys : List String) :
    ∃ settled, keys.foldl (fun c key => c.cleanupPendingResponse key s) c =
      { c with pending := c.pending.filter fun e => e.key ∉ keys, settled } := by
  induction keys generalizing c with
  | nil => exact ⟨c.settled, by simp⟩
  | cons key keys ih =>
    obtain ⟨settled, h⟩ := ih (c.cleanupPendingResponse key s)
    refine ⟨settled, ?_⟩
    rw [List.foldl_cons, h, cleanupPendingResponse_eq]
    dsimp only
    congr 1
    rw [List.filter_filter]
    apply List.filter_congr
    intro e _
    by_cases hkey : e.key = key
    · simp [hkey]
    · simp [hkey]

/-- What the listeners of a signal settle. -/
theorem Heard.settleEach (hc : Heard but c) {keys : List String}
    (h : ∀ key ∈ keys, Owned c s key) :
    Heard but (keys.foldl (fun c key => c.cleanupPendingResponse key (.aborted s)) c) ∧
      ∀ n r, (n, r) ∈ (keys.foldl (fun c key => c.cleanupPendingResponse key (.aborted s)) c).settled ↔
        (n, r) ∈ c.settled ∨ r = .aborted s ∧ ∃ e ∈ c.pending, e.key ∈ keys ∧ e.promise = n := by
  induction keys generalizing c with
  | nil =>
    refine ⟨hc, fun n r => ?_⟩
    simp
  | cons key keys ih =>
    have hclean : Heard but (c.cleanupPendingResponse key (.aborted s)) := by
      refine hc.cleanup _ _ fun g hg => ?_
      cases hg
      exact h key List.mem_cons_self
    have hentries := entries_cleanup c key (.aborted s)
    obtain ⟨hkept, hsettled⟩ := ih hclean fun k hk => hentries.owned (h k (List.mem_cons_of_mem _ hk))
    have hsettlement (n : ℕ) (r : Settlement) :=
      hc.toBooked.mem_settlementOf key (.aborted s) r n
    refine ⟨hkept, fun n r => ?_⟩
    rw [List.foldl_cons, hsettled, cleanupPendingResponse_eq, List.mem_append, hsettlement]
    constructor
    · rintro ((hold | ⟨hr, e, he, hkey, hn⟩) | ⟨hr, e, he, hkey, hn⟩)
      · exact Or.inl hold
      · exact Or.inr ⟨hr, e, he, hkey ▸ List.mem_cons_self, hn⟩
      · exact Or.inr ⟨hr, e, (List.mem_filter.mp he).1, List.mem_cons_of_mem _ hkey, hn⟩
    · rintro (hold | ⟨hr, e, he, hkey, hn⟩)
      · exact Or.inl (Or.inl hold)
      · by_cases hk : e.key = key
        · exact Or.inl (Or.inr ⟨hr, e, he, hk, hn⟩)
        · refine Or.inr ⟨hr, e, List.mem_filter.mpr ⟨he, bne_iff_ne.mpr hk⟩, ?_, hn⟩
          exact (List.mem_cons.mp hkey).resolve_left hk

def keysOf (c : Pool V) (s : ℕ) : List String := (c.listeners.filter (·.1 = s)).map (·.2)

theorem mem_keysOf : key ∈ keysOf c s ↔ (s, key) ∈ c.listeners := by
  unfold keysOf
  constructor
  · intro h
    obtain ⟨⟨s', key'⟩, hl, rfl⟩ := List.mem_map.mp h
    obtain ⟨hmem, hs⟩ := List.mem_filter.mp hl
    obtain rfl : s' = s := by simpa using hs
    exact hmem
  · intro h
    exact List.mem_map.mpr ⟨(s, key), List.mem_filter.mpr ⟨h, by simp⟩, rfl⟩

/-- An abort calls the listeners, which are gone after it. -/
theorem abort_eq (hs : s ∉ c.aborted) :
    c.abort s =
      { (keysOf c s).foldl (fun c key => c.cleanupPendingResponse key (.aborted s)) c with
        aborted := s :: c.aborted
        listeners := c.listeners.filter (·.1 ≠ s) } := by
  have hcommute : ∀ (keys : List String) (c : Pool V) (aborted : List ℕ) (listeners : List (ℕ × String)),
      keys.foldl (fun c key => c.cleanupPendingResponse key (.aborted s))
          { c with aborted, listeners } =
        { keys.foldl (fun c key => c.cleanupPendingResponse key (.aborted s)) c with
          aborted, listeners } := by
    intro keys
    induction keys with
    | nil => exact fun c aborted listeners => rfl
    | cons key keys ih =>
      intro c aborted listeners
      rw [List.foldl_cons, List.foldl_cons, ← ih, cleanupPendingResponse_eq, cleanupPendingResponse_eq]
      rfl
  unfold Pool.abort
  rw [if_neg hs]
  exact hcommute _ c _ _

theorem Heard.abort (hc : Heard but c) (s : ℕ) : Heard but (c.abort s) := by
  by_cases hs : s ∈ c.aborted
  · unfold Pool.abort
    rw [if_pos hs]
    exact hc
  · have howned : ∀ key ∈ keysOf c s, Owned c s key := fun key hkey => hc.owned _ (mem_keysOf.mp hkey)
    obtain ⟨hkept, -⟩ := hc.settleEach howned
    obtain ⟨settled, heq⟩ := settleEach_eq c (.aborted s) (keysOf c s)
    rw [abort_eq hs]
    rw [heq] at hkept ⊢
    refine ⟨{ hkept with }, ?_, ?_, hkept.queued, ?_, hkept.reasons⟩
    · exact fun l hl => hkept.owned l (List.mem_filter.mp hl).1
    · intro l hl hab
      obtain ⟨hmem, hne⟩ := List.mem_filter.mp hl
      rcases List.mem_cons.mp hab with hls | hab
      · simp [hls] at hne
      · exact hc.live l hmem hab
    · intro e he hbut g hg
      have hlistener := hkept.heard e he hbut g hg
      refine List.mem_filter.mpr ⟨hlistener, ?_⟩
      -- the requests of the signal are not pending any more
      have hkey : e.key ∉ keysOf c s := by simpa using (List.mem_filter.mp he).2
      have hne : g ≠ s := by
        rintro rfl
        exact hkey (mem_keysOf.mpr hlistener)
      simpa using hne

/-! ## What an abort settles -/

/-- Where the requests of signals are heard, and nobody else is under their keys, an abort
settles them and nothing else. -/
theorem Heard.aborts (hc : Heard none c) : AbortsPrecisely c := by
  refine ⟨fun s hs n r => ?_, hc.reasons⟩
  have howned : ∀ key ∈ keysOf c s, Owned c s key := fun key hkey => hc.owned _ (mem_keysOf.mp hkey)
  rw [abort_eq hs]
  refine ((hc.settleEach howned).2 n r).trans (or_congr Iff.rfl (and_congr Iff.rfl ?_))
  constructor
  · rintro ⟨e, he, hkey, rfl⟩
    exact ⟨howned e.key hkey e he rfl, hc.unsettled e he⟩
  · rintro ⟨hsignal, hopen⟩
    rcases hc.answered (n, s) hsignal with ⟨r', hr'⟩ | ⟨e, he, hn⟩
    · exact absurd hr' (hopen r')
    · obtain rfl : e.promise = n := hn
      exact ⟨e, he, mem_keysOf.mpr (hc.heard e he (Option.some_ne_none _) s hsignal), rfl⟩

/-! ## Moves -/

/-- A move that registers nobody keeps it that way. -/
theorem Move.heard (h : Move W T A c c') (hA : ∀ c key o, ¬ A.request c key o) (hc : Heard but c) :
    Heard but c' := by
  cases h with
  | work c' h => exact h.heard hc
  | settle key s hs => exact hc.cleanup key s fun g hg => absurd hg (hs g)
  | register key o hsignal hrequest => exact absurd hrequest (hA c key o)
  | turnDown c' key o e h => exact h.heard (hc.turnDown key o e)
  | refuseAborted o s => exact hc.refuseAborted o s
  | post p key busy hp hA => exact hc.recordPost p key busy
  | listen s key hs howned => exact hc.listen hs howned
  | enqueue item h => exact hc.enqueue h.owned
  | evict hpolicy => exact hc.evict
  | serve drain id => exact hc.serve drain id
  | clear => exact hc.dequeue fun item hitem => absurd hitem List.not_mem_nil
  | abort s => exact hc.abort s

theorem Moves.heard (h : Moves W T A c c') (hA : ∀ c key o, ¬ A.request c key o) (hc : Heard but c) :
    Heard but c' := by
  induction h with
  | refl => exact hc
  | tail _ hstep ih => exact hstep.heard hA ih

/-! ## Requests and their listeners -/

/-- The branch of a request installs a listener under the key: the request goes to a worker
through the wrapper, or is queued under an id that is not empty. -/
def Listens (T : ObjectText V) (c : Pool V) (prepared : Prepared V) (key : String) (detached : List ℕ) :
    Pool.PostRoute → Prop
  | .refuse _ | .fallback _ => False
  | .queue => key ≠ ""
  | .worker id => canBypassWrapper detached (c.encodeFor T id prepared) = false
  | .grow => canBypassWrapper detached (c.addWorkerInstance.encodeFor T c.nextWorkerId prepared) = false

/-- A request whose promise stays open is made under a fresh key, and its signal is listened
for: already, or by the branch that serves it. -/
def HeardRequest (W : World) (T : ObjectText V) : PostCondition V := fun c m tr o detached =>
  o.wantResponse = true → ∀ deadlineAt, Enters c m o deadlineAt →
    Stays W (c.leastFor W o.workerId).1 (c.leastFor W o.workerId).2 deadlineAt o →
      Fresh c ((c.leastFor W o.workerId).1.correlationIdFor o).2 o ∧
        ∀ s ∈ o.signal, (s, ((c.leastFor W o.workerId).1.correlationIdFor o).2) ∈ c.listeners ∨
          ¬ Refuses W (c.leastFor W o.workerId).1 (c.leastFor W o.workerId).2 deadlineAt o ∧
            Listens T (c.leastFor W o.workerId).1
              (prepareForTransfer T c.messageCodec
                (Pool.withCorrelationId T m ((c.leastFor W o.workerId).1.correlationIdFor o).2) tr
                o.zeroCopy)
              ((c.leastFor W o.workerId).1.correlationIdFor o).2 detached
              ((c.leastFor W o.workerId).1.routeOf (c.leastFor W o.workerId).2 o.workerId)

theorem listeners_listenForAbort (hs : ∀ s ∈ signal, s ∉ c.aborted) (key : String) :
    (c.listenForAbort signal (some key)).listeners =
      c.listeners ++ (signal.map fun s => (s, key)).toList := by
  cases signal with
  | none => exact (List.append_nil _).symm
  | some s =>
    unfold Pool.listenForAbort
    dsimp only
    rw [if_neg (hs s rfl)]
    rfl

theorem listeners_recordPost (c : Pool V) (p : Post V) (key : Option String) (busy : Bool) :
    (c.recordPost p key busy).listeners = c.listeners ∧ (c.recordPost p key busy).aborted = c.aborted := by
  obtain ⟨ws, bs, bt, h⟩ := recordPost_eq c p key busy
  rw [h]
  exact ⟨rfl, rfl⟩

theorem listeners_refuse (c : Pool V) (waiter : Waiter) (s : Settlement) :
    (c.refuse waiter s).1.listeners = c.listeners := by
  rcases refuse_cases c waiter s with ⟨-, h⟩ | ⟨key, n, -, -, h⟩
  · rw [h]
  · rw [h, cleanupPendingResponse_eq]

theorem listeners_evict (c : Pool V) : c.evict.listeners = c.listeners := by
  rcases evict_cases c with ⟨h, -⟩ | ⟨dropped, rest, pending, settled, -, h, -⟩ <;> rw [h]

def Installs (c c' : Pool V) (listens : Prop) (signal : Option ℕ) (key : String) : Prop :=
  (∀ l ∈ c.listeners, l ∈ c'.listeners) ∧ (listens → ∀ s ∈ signal, (s, key) ∈ c'.listeners)

theorem Installs.nothing {listens : Prop}
    (h : c'.listeners = c.listeners) (hno : ¬ listens) : Installs c c' listens signal key :=
  ⟨fun _ hl => h ▸ hl, fun hl => absurd hl hno⟩

theorem Installs.one {listens : Prop}
    (h : c'.listeners = c.listeners ++ (signal.map fun s => (s, key)).toList) :
    Installs c c' listens signal key := by
  refine ⟨fun _ hl => h ▸ List.mem_append_left _ hl, fun _ s hs => ?_⟩
  rw [h, show signal = some s from hs]
  exact List.mem_append_right _ (List.mem_singleton_self _)

theorem postToWorkerObj_installs (hs : ∀ s ∈ signal, s ∉ c.aborted)
    (hserved : W.accepts c.attempts = true) (id : ℕ) (prepared : Prepared V) (key : String) (n : ℕ)
    (origin : Origin V) (detached : List ℕ) :
    Installs c (c.postToWorkerObj W T id prepared (some (key, n)) signal origin detached).1
      (canBypassWrapper detached (c.encodeFor T id prepared) = false) signal key := by
  rcases postToWorkerObj_cases W T c id prepared (some (key, n)) signal origin detached with
    ⟨-, hbypass, c', wire, hsame, h⟩ | ⟨-, -, c', wire, hsame, h⟩ | ⟨hthrows, -⟩
  · rw [h]
    refine Installs.nothing (hsame.listeners.trans ?_) (by simp [hbypass])
    exact (listeners_recordPost _ _ _ _).1
  · rw [h]
    refine Installs.one (hsame.listeners.trans ?_)
    have hrecord := listeners_recordPost (c.attempt W).1 (c.postTo id wire false origin) (some key) true
    refine (listeners_listenForAbort (hrecord.2 ▸ hs) key).trans ?_
    exact congrArg (· ++ _) hrecord.1
  · rw [hserved] at hthrows
    cases hthrows

theorem takeRoute_installs {route : Pool.PostRoute} (hs : ∀ s ∈ o.signal, s ∉ c.aborted)
    (hserved : ¬ Unserved W c route) (prepared : Prepared V) (key : String) (n : ℕ)
    (deadlineAt : Option ℚ) (origin : Origin V) (detached : List ℕ) :
    Installs c (c.takeRoute W T route prepared (some (key, n)) deadlineAt o origin detached).1
      (Listens T c prepared key detached route) o.signal key := by
  cases route with
  | refuse error => exact absurd trivial hserved
  | queue =>
    have hitem (d : Pool V) (hd : d.listeners = c.listeners) :
        Installs c (d.pushItem (c.queuedItem prepared (some (key, n)) deadlineAt o origin) (some (key, n))).1
          (key ≠ "") o.signal key := by
      have hidle := (SameTasks.updateIdleState
        (d.enqueue (c.queuedItem prepared (some (key, n)) deadlineAt o origin))).listeners
      by_cases hkey : key = ""
      · refine Installs.nothing (hidle.trans ?_) (not_not.mpr hkey)
        unfold Pool.enqueue Pool.queuedItem
        rw [hkey]
        dsimp only
        rw [← hd]
        cases o.signal <;> rfl
      · refine Installs.one (hidle.trans ?_)
        unfold Pool.enqueue Pool.queuedItem
        have hid : (Option.map Prod.fst (some (key, n))).filter (· ≠ "") = some key := by simp [hkey]
        dsimp only
        rw [hid, hd]
        cases o.signal with
        | none => exact (List.append_nil _).symm
        | some s => rfl
    unfold Pool.takeRoute
    dsimp only
    rcases enqueueOrReject_cases c prepared (some (key, n)) deadlineAt o origin with
      ⟨-, -, h⟩ | ⟨-, -, h⟩ | ⟨hno, -⟩
    · rw [h]
      exact hitem c.evict (listeners_evict c)
    · rw [h]
      exact hitem c rfl
    · exact absurd hno hserved
  | worker id =>
    exact postToWorkerObj_installs hs (Bool.eq_true_of_not_eq_false hserved) id prepared key n origin detached
  | fallback id =>
    have h := postToWorkerObj_installs (W := W) (T := T) (c := c.advance)
      (fun s (hs : s ∈ (none : Option ℕ)) => by cases hs) (Bool.eq_true_of_not_eq_false hserved) id prepared key n origin detached
    exact ⟨h.1, fun hl => False.elim hl⟩
  | grow =>
    obtain ⟨hcreates, haccepts⟩ := not_or.mp hserved
    unfold Pool.takeRoute Pool.tryGrowPool
    dsimp only
    rw [tryAddWorker_created W (Bool.eq_true_of_not_eq_false hcreates)]
    exact postToWorkerObj_installs (c := c.addWorkerInstance) hs (Bool.eq_true_of_not_eq_false haccepts)
      c.nextWorkerId prepared key n origin detached

theorem postFor_installs {least : Option Worker} {deadlineAt : Option ℚ}
    (hs : ∀ s ∈ o.signal, s ∉ c.aborted) (hserved : ¬ Refuses W c least deadlineAt o) (m : Message V)
    (tr : TransferList) (key : String) (n : ℕ) (detached : List ℕ) :
    Installs c (c.postFor W T least m tr (some (key, n)) deadlineAt o detached).1
      (Listens T c (prepareForTransfer T c.messageCodec m tr o.zeroCopy) key detached
        (c.routeOf least o.workerId)) o.signal key := by
  obtain ⟨hdead, hroute⟩ := not_or.mp hserved
  unfold Pool.postFor
  rw [if_neg (by simpa [Option.any_eq_true] using hdead)]
  exact takeRoute_installs hs hroute _ key n deadlineAt _ detached

/-! ## What a post leaves pending -/

theorem entries_refuse (c : Pool V) (waiter : Waiter) (s : Settlement) :
    Entries c (c.refuse waiter s).1 := by
  rcases refuse_cases c waiter s with ⟨-, h⟩ | ⟨key, n, -, -, h⟩
  · rw [h]
    exact (SameTasks.refl c).entries
  · rw [h]
    exact entries_cleanup c key s

theorem entries_listenForAbort (c : Pool V) (signal : Option ℕ) (key : Option String) :
    Entries c (c.listenForAbort signal key) := by
  unfold Pool.listenForAbort
  split
  · split
    · exact entries_cleanup c _ _
    · exact ⟨fun e he => ⟨e, he, rfl, rfl⟩, rfl, rfl⟩
  · exact (SameTasks.refl c).entries

theorem entries_postToWorkerObj (W : World) (T : ObjectText V) (c : Pool V) (id : ℕ)
    (prepared : Prepared V) (waiter : Waiter) (signal : Option ℕ) (origin : Origin V) (detached : List ℕ) :
    Entries c (c.postToWorkerObj W T id prepared waiter signal origin detached).1 := by
  have hattempt := (SameTasks.attempt W c).entries
  rcases postToWorkerObj_cases W T c id prepared waiter signal origin detached with
    ⟨-, -, c', wire, hsame, h⟩ | ⟨-, -, c', wire, hsame, h⟩ | ⟨-, h⟩
  · rw [h]
    exact (hattempt.trans (entries_recordPost _ _ _ _)).trans hsame.entries
  · rw [h]
    have hposted := hattempt.trans (entries_recordPost (c.attempt W).1 (c.postTo id wire false origin)
      (waiter.map (·.1)) true)
    exact (hposted.trans (entries_listenForAbort _ signal (waiter.map (·.1)))).trans hsame.entries
  · rw [h]
    exact hattempt.trans (entries_refuse _ waiter _)

theorem entries_pushItem (c : Pool V) (item : QueueItem V) (waiter : Waiter) :
    Entries c (c.pushItem item waiter).1 := by
  have hitem : Entries c (c.enqueue item) := ⟨fun e he => ⟨e, he, rfl, rfl⟩, rfl, rfl⟩
  exact hitem.trans (SameTasks.updateIdleState _).entries

theorem entries_takeRoute (W : World) (T : ObjectText V) (c : Pool V) (route : Pool.PostRoute)
    (prepared : Prepared V) (waiter : Waiter) (deadlineAt : Option ℚ) (o : PostOptions)
    (origin : Origin V) (detached : List ℕ) :
    Entries c (c.takeRoute W T route prepared waiter deadlineAt o origin detached).1 := by
  cases route with
  | refuse error => exact entries_refuse c waiter _
  | queue =>
    unfold Pool.takeRoute
    dsimp only
    rcases enqueueOrReject_cases c prepared waiter deadlineAt o origin with
      ⟨-, -, h⟩ | ⟨-, -, h⟩ | ⟨-, e, h⟩
    · rw [h]
      exact (entries_evict c).trans (entries_pushItem _ _ waiter)
    · rw [h]
      exact entries_pushItem c _ waiter
    · rw [h]
      exact entries_refuse c waiter _
  | worker id => exact entries_postToWorkerObj W T c id prepared waiter o.signal origin detached
  | fallback id =>
    exact (SameTasks.advance c).entries.trans
      (entries_postToWorkerObj W T c.advance id prepared waiter none origin detached)
  | grow =>
    have hadd := (SameTasks.tryAddWorker W c).entries
    unfold Pool.takeRoute Pool.tryGrowPool
    dsimp only
    split
    · exact hadd.trans (entries_refuse _ waiter _)
    · exact hadd.trans (entries_postToWorkerObj W T _ _ prepared waiter o.signal origin detached)

theorem entries_postFor (W : World) (T : ObjectText V) (c : Pool V) (least : Option Worker)
    (m : Message V) (tr : TransferList) (waiter : Waiter) (deadlineAt : Option ℚ) (o : PostOptions)
    (detached : List ℕ) : Entries c (c.postFor W T least m tr waiter deadlineAt o detached).1 := by
  unfold Pool.postFor
  split
  · exact entries_refuse c waiter _
  · exact entries_takeRoute W T c _ _ waiter deadlineAt o _ detached

/-! ## Posts -/

def Allowed.unasked (V : Type) : Allowed V where
  item _ := True
  request _ _ _ := False

theorem Heard.all {n : ℕ} (hc : Heard (some n) c)
    (h : ∀ e ∈ c.pending, e.promise = n → ∀ s, (n, s) ∈ c.signals → (s, e.key) ∈ c.listeners) :
    Heard none c := by
  refine ⟨hc.toBooked, hc.owned, hc.live, hc.queued, ?_, hc.reasons⟩
  intro e he _ s hs
  by_cases hn : e.promise = n
  · exact h e he hn s (hn ▸ hs)
  · exact hc.heard e he (fun h => hn (Option.some.inj h)) s hs

/-- Whether a request is listened for is a matter of the state before it is registered. -/
theorem listens_register (T : ObjectText V) (c : Pool V) (o : PostOptions) (prepared : Prepared V)
    (key : String) (detached : List ℕ) (route : Pool.PostRoute) :
    Listens T ((c.correlationIdFor o).1.register (c.correlationIdFor o).2 o) prepared key detached route ↔
      Listens T c prepared key detached route := by
  obtain ⟨n, h⟩ := correlationIdFor_eq c o
  rw [h, register_eq]
  cases route <;> exact Iff.rfl

theorem postFor_heard {least : Option Worker} {m : Message V} {tr : TransferList}
    {deadlineAt : Option ℚ} {detached : List ℕ} (hb : Bounded c) (hc : Heard none c)
    (hs : ∀ s ∈ o.signal, s ∉ c.aborted) (hleast : ∀ w ∈ least, ∀ t ∈ o.workerId, w.id = t)
    (hdeadline : Pool.deadlineOf o = .ok deadlineAt) (hkey : key = "" → o.correlationId = some "")
    (hfresh : Fresh c key o)
    (hlistens : ∀ s ∈ o.signal, (s, key) ∈ c.listeners ∨
      ¬ Refuses W (c.register key o) least deadlineAt o ∧
        Listens T (c.register key o) (prepareForTransfer T c.messageCodec m tr o.zeroCopy) key detached
          ((c.register key o).routeOf least o.workerId)) :
    Heard none ((c.register key o).postFor W T least m tr (some (key, c.nextPromise)) deadlineAt o
      detached).1 := by
  have hreg := hc.register hfresh
  have haborted : (c.register key o).aborted = c.aborted := by rw [register_eq]
  have hlisteners : (c.register key o).listeners = c.listeners := by rw [register_eq]
  have hmoves : Moves W T (Allowed.unasked V) (c.register key o)
      ((c.register key o).postFor W T least m tr (some (key, c.nextPromise)) deadlineAt o detached).1 := by
    apply postFor_moves (bounded_register hb) (waits_register c key o)
    · rw [haborted]
      exact hs
    · rintro w ⟨⟩
      exact Or.inr (entry_register c key o)
    · exact hleast
    · exact hdeadline
    · rintro w ⟨⟩
      exact hkey
    · exact fun _ _ _ _ _ => trivial
    · exact fun _ _ _ => trivial
  refine (hmoves.heard (fun _ _ _ h => h) hreg).all fun e he hn s hsig => ?_
  have hentries := entries_postFor W T (c.register key o) least m tr (some (key, c.nextPromise))
    deadlineAt o detached
  -- the entry is the one that has been registered, and the signal is its own
  obtain ⟨e', he', hkey', hpromise'⟩ := hentries.1 e he
  have hmine : e.key = key ∧ s ∈ o.signal := by
    rw [hentries.2.1] at hsig
    rw [register_eq] at he' hsig
    constructor
    · rcases List.mem_append.mp he' with he' | he'
      · have hlt := hc.made e' (List.mem_filter.mp he').1
        omega
      · rw [← hkey', List.mem_singleton.mp he']
    · rcases List.mem_append.mp hsig with hsig | hsig
      · exact absurd (hc.signalsMade _ hsig) (Nat.lt_irrefl _)
      · obtain ⟨g, hg, heq⟩ := Option.map_eq_some_iff.mp (Option.mem_toList.mp hsig)
        rw [← (Prod.mk.inj heq).2]
        exact hg
  obtain ⟨hkey, hsignal⟩ := hmine
  rw [hkey]
  by_cases hrefuses : Refuses W (c.register key o) least deadlineAt o
  · -- a request with an empty id is refused without a word to its waiter
    have hthere := (hlistens s hsignal).resolve_right fun h => h.1 hrefuses
    obtain ⟨c', error, hsame, h⟩ := postFor_refused W T (some (key, c.nextPromise)) deadlineAt o detached
      hrefuses m tr
    rw [h, listeners_refuse, hsame.listeners, hlisteners]
    exact hthere
  · have hinstalls := postFor_installs (T := T) (haborted ▸ hs) hrefuses m tr key c.nextPromise detached
    rcases hlistens s hsignal with hthere | ⟨-, hlistens⟩
    · exact hinstalls.1 _ (hlisteners ▸ hthere)
    · refine hinstalls.2 ?_ s hsignal
      rw [register_eq] at hlistens ⊢
      exact hlistens

theorem post_heard (hb : Bounded c) (hc : Heard none c) {m : Message V} {tr : TransferList}
    {detached : List ℕ} (h : HeardRequest W T c m tr o detached) :
    Heard none (c.postMessageInner W T m tr o detached).1 := by
  by_cases hregisters : Registers W c m o
  · obtain ⟨hwant, deadlineAt, henters, hstays⟩ := hregisters
    obtain ⟨hfresh, hlistens⟩ := h hwant deadlineAt henters hstays
    have hleast := SameTasks.leastFor W c o.workerId
    have hid := SameTasks.correlationIdFor (c.leastFor W o.workerId).1 o
    have hrefuses := refuses_register W (c.leastFor W o.workerId).1 (c.leastFor W o.workerId).2 deadlineAt o
    have hmine : SameTasks c ((c.leastFor W o.workerId).1.correlationIdFor o).1 := hleast.trans hid
    rw [postMessageInner_of_enters henters hwant]
    apply postFor_heard (hmine.bounded hb) (hmine.heard hc)
    · rw [hmine.aborted]
      exact henters.signal
    · exact leastFor_ok c o.workerId
    · exact henters.deadline
    · exact correlationIdFor_eq_empty.mp
    · constructor
      · rw [hmine.listeners]
        exact hfresh.listeners
      · rw [hmine.queue]
        exact hfresh.queue
    · intro s hs
      have hroute : ((c.leastFor W o.workerId).1.correlationIdFor o).1.routeOf
          (c.leastFor W o.workerId).2 o.workerId =
          (c.leastFor W o.workerId).1.routeOf (c.leastFor W o.workerId).2 o.workerId := by
        obtain ⟨n, h⟩ := correlationIdFor_eq (c.leastFor W o.workerId).1 o
        rw [h]
        rfl
      have hcodec : ((c.leastFor W o.workerId).1.correlationIdFor o).1.messageCodec = c.messageCodec :=
        congrArg Config.messageCodec hmine.config
      rw [hmine.listeners, hrefuses, listens_register, routeOf_register, hroute, hcodec]
      exact hlistens s hs
  · have hmoves : Moves W T (Allowed.unasked V) c (c.postMessageInner W T m tr o detached).1 :=
      postMessageInner_moves hb (fun h => absurd h hregisters) (fun _ _ _ => trivial)
        fun _ _ _ _ _ => trivial
    exact hmoves.heard (fun _ _ _ h => h) hc

theorem heard_new (W : World) (config : Config) (minSize maxSize initial sequence : ℕ) :
    Heard none (Pool.new W config minSize maxSize initial sequence : Pool V) := by
  have hempty : Heard none ({ toConfig := config } : Pool V) := by
    constructor
    · constructor
      · exact List.nodup_nil
      · exact List.nodup_nil
      all_goals exact fun x hx => absurd hx List.not_mem_nil
    · exact fun x hx => absurd hx List.not_mem_nil
    · exact fun x hx => absurd hx List.not_mem_nil
    · exact fun x hx => absurd hx List.not_mem_nil
    · exact fun x hx => absurd hx List.not_mem_nil
    · exact fun n s hs => absurd hs List.not_mem_nil
  exact (new_same W config minSize maxSize initial sequence).heard hempty

end PerformanceHelpers.PowerPool
