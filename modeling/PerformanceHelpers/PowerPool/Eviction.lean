import PerformanceHelpers.PowerPool.Steps
import PerformanceHelpers.PowerPool.TaskQueue

/- The bound on the queue of a `PowerPool`, and what `drop-oldest` drops
   (`src/helpers/powerPool.js`, `_enqueueOrReject`, `_reserveQueueSlots` and
   `postMessageBatch`).

   An eviction calls `shift()`, as a dispatch does: on a heap that is the item of the
   highest priority. The waiter is rejected by its correlation id, which is not kept
   where it is empty.

   What is proved:
     1. `Moves.linked` — a queued request is pending under its key until it is settled.
     2. `evictions_iff` — in every run the queue is within its bound, an eviction takes
        the item that has been queued longest exactly when priorities age or no item has
        a higher priority than that one, and rejects the promise of a request exactly
        when its correlation id is not empty. -/
namespace PerformanceHelpers.PowerPool

variable {V : Type} {W : World} {T : ObjectText V} {A : Allowed V} {c c' : Pool V}

/-! ## Whom a queued item answers -/

theorem answers_settleEach {n : ℕ} {key : String} (s : Settlement) (keys : List String)
    (h : Answers c n key) :
    Answers (keys.foldl (fun c key => c.cleanupPendingResponse key s) c) n key := by
  induction keys generalizing c with
  | nil => exact h
  | cons key' keys ih => exact ih (answers_cleanup h key' s)

theorem answers_markEntries {n : ℕ} {key : String} (h : Answers c n key) (key' : Option String) (id : ℕ) :
    Answers { c with pending := Pool.markEntries key' id c.pending } n key := by
  rcases h with h | ⟨e, he, hn⟩
  · exact Or.inl h
  · refine Or.inr ?_
    cases key' with
    | none => exact ⟨e, he, hn⟩
    | some k =>
      unfold Pool.entryFor? at he ⊢
      refine ⟨if e.key = k then { e with workerId := some id } else e, ?_, ?_⟩
      · rw [Pool.markEntries, List.find?_map]
        have hkey : ((fun e : Entry => e.key == key) ∘ fun e => if e.key = k then
            { e with workerId := some id } else e) = fun e => e.key == key := by
          funext e
          simp only [Function.comp_apply]
          split <;> rfl
        rw [hkey, he]
        rfl
      · split <;> exact hn

theorem answers_recordPost {n : ℕ} {key : String} (h : Answers c n key) (p : Post V)
    (key' : Option String) (busy : Bool) : Answers (c.recordPost p key' busy) n key := by
  obtain ⟨ws, bs, bt, hrecord⟩ := recordPost_eq c p key' busy
  have hmark := answers_markEntries h key' p.worker
  rw [hrecord]
  exact hmark

theorem answers_listenForAbort {n : ℕ} {key : String} (h : Answers c n key) (signal : Option ℕ)
    (key' : Option String) : Answers (c.listenForAbort signal key') n key := by
  unfold Pool.listenForAbort
  split
  · split
    · exact answers_cleanup h _ _
    · exact h
  · exact h

theorem Discards.answers {n : ℕ} {key : String} (hd : Discards c c') (h : Answers c n key) :
    Answers c' n key := by
  induction hd with
  | done c => exact h
  | next c _ item rest hperm hdead hd ih =>
    apply ih
    have hrest : Answers { c with queue := rest } n key := h
    obtain ⟨c₁, hc₁, heq⟩ := discard_eq { c with queue := rest } item
    have hanswers : Answers c₁ n key := by
      rcases hc₁ with ⟨-, rfl⟩ | ⟨key', s, -, -, rfl⟩
      · exact hrest
      · exact answers_cleanup hrest key' s
    rw [heq]
    exact hanswers

/-- A promise keeps its answer through every move. -/
theorem Move.answers {n : ℕ} {key : String} (h : Move W T A c c') (ha : Answers c n key) :
    Answers c' n key := by
  cases h with
  | work c' h => exact h.answers ha
  | settle key' s hs => exact answers_cleanup ha key' s
  | register key' o hsignal hA => exact answers_register ha key' o
  | turnDown c' key' o e h => exact h.answers (answers_cleanup (answers_register ha key' o) key' _)
  | refuseAborted o s =>
    unfold Pool.refuseAborted
    split
    · rcases ha with ⟨s', hs'⟩ | h
      · exact Or.inl ⟨s', List.mem_append_left _ hs'⟩
      · exact Or.inr h
    · exact ha
  | post p key' busy hp => exact answers_recordPost ha p key' busy
  | listen s key' hs howned | enqueue item h => exact ha
  | evict hpolicy => exact answers_evict ha
  | serve drain id =>
    obtain ⟨c₁, hd, h⟩ := serve_cases W T c drain id
    have ha₁ := hd.answers ha
    rcases h with h | ⟨item, rest, c₂, -, -, hsame, h⟩
    · rw [h]
      exact ha₁
    · have ha₂ : Answers c₂ n key := hsame.answers ha₁
      rcases h with h | ⟨p, -, -, -, -, -, h⟩
      · rw [h]
        exact ha₂
      · rw [h]
        exact answers_listenForAbort (answers_recordPost ha₂ p _ _) _ _
  | clear => exact ha
  | abort s =>
    unfold Pool.abort
    split
    · exact ha
    · exact answers_settleEach _ _ ha

def Linked (c : Pool V) : Prop :=
  ∀ item ∈ c.queue, ∀ n ∈ item.origin.request, ∀ key ∈ item.correlationId, Answers c n key

theorem Moves.linked (h : Moves W T A c c') (hc : Linked c) : Linked c' := by
  induction h with
  | refl => exact hc
  | tail _ hstep ih =>
    intro item hitem n hn key hkey
    rcases hstep.queue_cases with ⟨hqueue, -⟩ | ⟨item', hadmitted, hqueue, -⟩
    · exact hstep.answers (ih item (hqueue.subset hitem) n hn key hkey)
    · rw [hqueue] at hitem
      rcases List.mem_append.mp hitem with hitem | hitem
      · exact hstep.answers (ih item hitem n hn key hkey)
      · obtain rfl := List.mem_singleton.mp hitem
        exact hstep.answers (hadmitted.answers n hn key hkey)

/-! ## What an eviction takes -/

/-- The item queued longest has gone, and whoever waited for it has been told. -/
def Eviction.Right (ev : Eviction V) : Prop :=
  ev.queue.head? = some ev.victim ∧
    ∀ n ∈ ev.victim.origin.request, (∀ s, (n, s) ∉ ev.before) → ∃ e, (n, .rejected e) ∈ ev.after

/-- The item queued longest has no item of a higher priority behind it, unless priorities
age; and it is not waited for under an empty correlation id. -/
def Eviction.OldestFirst (agingMs : ℚ) (ev : Eviction V) : Prop :=
  ∀ first ∈ ev.queue.head?,
    (0 < agingMs ∨ ∀ item ∈ ev.queue, item.itemPriority ≤ first.itemPriority) ∧
      ∀ n ∈ first.origin.request, first.correlationId = none → ∃ s, (n, s) ∈ ev.before

/-- The first of the greatest is the first of all exactly when nothing is greater than the
first. -/
theorem takeBest_head {α : Type} {f : α → ℚ} {x y : α} {xs ys : List α}
    (h : takeBest f (x :: xs) = some (y, ys)) : y = x ↔ ∀ z ∈ x :: xs, f z ≤ f x := by
  obtain ⟨pre, post, heq, -, hbest⟩ := takeBest_eq_some_iff.mp h
  constructor
  · rintro rfl z hz
    rw [heq] at hz
    rcases List.mem_append.mp hz with hz | hz
    · exact (hbest.before z hz).le
    · rcases List.mem_cons.mp hz with rfl | hz
      · exact le_rfl
      · exact hbest.after z hz
  · intro hle
    cases pre with
    | nil => exact (List.cons.inj heq).1.symm
    | cons w pre =>
      obtain ⟨rfl, -⟩ := List.cons.inj heq
      have hy : y ∈ x :: xs := heq ▸ List.mem_append_right _ List.mem_cons_self
      exact absurd (hle y hy) (not_le.mpr (hbest.before x List.mem_cons_self))

/-- An eviction takes the head of the queue exactly when priorities age or nothing in it is
above the head. -/
theorem shift_head {item : QueueItem V} {rest : List (QueueItem V)}
    (h : c.shift c.queue = some (item, rest)) :
    c.queue.head? = some item ↔ ∀ first ∈ c.queue.head?,
      0 < c.priorityAgingMs ∨ ∀ z ∈ c.queue, z.itemPriority ≤ first.itemPriority := by
  cases hqueue : c.queue with
  | nil =>
    rw [hqueue, shift_nil] at h
    cases h
  | cons x xs =>
    rw [hqueue] at h
    unfold Pool.shift at h
    have hfirst : (∀ first ∈ (x :: xs).head?, 0 < c.priorityAgingMs ∨
        ∀ z ∈ x :: xs, z.itemPriority ≤ first.itemPriority) ↔
          (0 < c.priorityAgingMs ∨ ∀ z ∈ x :: xs, z.itemPriority ≤ x.itemPriority) := by
      constructor
      · exact fun h => h x rfl
      · rintro h first ⟨⟩
        exact h
    rw [hfirst, List.head?_cons, Option.some_inj]
    split at h
    · next haging =>
      rw [eq_comm, takeBest_head h]
      exact ⟨Or.inr, fun h => h.resolve_left (not_lt.mpr haging)⟩
    · next haging =>
      cases h
      exact ⟨fun _ => Or.inl (not_le.mp haging), fun _ => rfl⟩

theorem evict_right_iff (hc : Linked c) :
    ∀ ev ∈ c.evict.evictions, ev ∈ c.evictions ∨
      (ev.Right ↔ ev.OldestFirst c.priorityAgingMs) := by
  intro ev hev
  rcases evict_cases c with ⟨h, -⟩ | ⟨dropped, rest, pending, settled, hshift, h, hp⟩
  · rw [h] at hev
    exact Or.inl hev
  · rw [h] at hev
    rcases List.mem_append.mp hev with hev | hev
    · exact Or.inl hev
    · obtain rfl := List.mem_singleton.mp hev
      refine Or.inr ?_
      have hmem : dropped ∈ c.queue := (shift_perm hshift).mem_iff.mpr List.mem_cons_self
      -- a waiter that has not been settled is rejected unless its key is empty
      have hrejected : ∀ n ∈ dropped.origin.request, (∀ s, (n, s) ∉ c.settled) →
          ((∃ e, (n, .rejected e) ∈ settled) ↔ dropped.correlationId ≠ none) := by
        intro n hn hunsettled
        rcases hp with ⟨hid, -, hsettled⟩ | ⟨key, hid, -, hsettled⟩
        · rw [hsettled]
          exact ⟨fun ⟨e, he⟩ => absurd he (hunsettled _), fun hne => absurd hid hne⟩
        · refine ⟨fun _ => by rw [hid]; exact Option.some_ne_none _, fun _ => ?_⟩
          rcases hc dropped hmem n hn key hid with ⟨s, hs⟩ | ⟨e, he, hen⟩
          · exact absurd hs (hunsettled s)
          · refine ⟨"postMessage queued task dropped by policy", ?_⟩
            rw [hsettled, settlementOf, he, ← hen]
            exact List.mem_append_right _ (List.mem_singleton_self _)
      have hhead := shift_head hshift
      unfold Eviction.Right Eviction.OldestFirst
      dsimp only
      constructor
      · rintro ⟨holdest, htold⟩ first hfirst
        refine ⟨hhead.mp holdest first hfirst, ?_⟩
        obtain rfl : dropped = first := Option.some.inj (holdest.symm.trans hfirst)
        intro n hn hid
        by_contra hunsettled
        have hnone : ∀ s, (n, s) ∉ c.settled := fun s hs => hunsettled ⟨s, hs⟩
        exact (hrejected n hn hnone).mp (htold n hn hnone) hid
      · intro hfirst
        have holdest := hhead.mpr fun first h => (hfirst first h).1
        refine ⟨holdest, fun n hn hunsettled => (hrejected n hn hunsettled).mpr fun hid => ?_⟩
        obtain ⟨s, hs⟩ := (hfirst dropped holdest).2 n hn hid
        exact hunsettled s hs

theorem logs_listenForAbort (c : Pool V) (signal : Option ℕ) (key : Option String) :
    (c.listenForAbort signal key).evictions = c.evictions ∧
      (c.listenForAbort signal key).discards = c.discards := by
  unfold Pool.listenForAbort
  split
  · split
    · rw [cleanupPendingResponse_eq]
      exact ⟨rfl, rfl⟩
    · exact ⟨rfl, rfl⟩
  · exact ⟨rfl, rfl⟩

theorem logs_serve (W : World) (T : ObjectText V) (c : Pool V) (drain : Drain) (id : ℕ) :
    ∃ c₁, Discards c c₁ ∧ (c.serve W T drain id).1.evictions = c.evictions ∧
      (c.serve W T drain id).1.discards = c₁.discards := by
  obtain ⟨c₁, hd, h⟩ := serve_cases W T c drain id
  have h₁ : c₁.evictions = c.evictions := by
    obtain ⟨q, p, s, ds, hframe⟩ := hd.frame
    rw [hframe]
  refine ⟨c₁, hd, ?_⟩
  rcases h with h | ⟨item, rest, c₂, -, -, hsame, h⟩
  · rw [h]
    exact ⟨h₁, rfl⟩
  · have h₂ : c₂.evictions = c.evictions := hsame.evictions.trans h₁
    rcases h with h | ⟨p, -, -, -, -, -, h⟩
    · rw [h]
      exact ⟨h₂, hsame.discards⟩
    · obtain ⟨ws, bs, bt, hrecord⟩ := recordPost_eq c₂ p item.correlationId true
      have hlogs := logs_listenForAbort (c₂.recordPost p item.correlationId true) item.signal
        item.correlationId
      rw [h, hlogs.1, hlogs.2, hrecord]
      exact ⟨h₂, hsame.discards⟩

theorem Move.logs_cases (h : Move W T A c c') :
    c'.evictions = c.evictions ∧ c'.discards = c.discards ∨ c' = c.evict ∨
      ∃ drain id, c' = (c.serve W T drain id).1 := by
  rcases h.logs with h | ⟨p, key, busy, -, rfl⟩ | ⟨item, -, rfl⟩ | h | h | rfl
  · exact Or.inl ⟨h.evictions, h.discards⟩
  · obtain ⟨ws, bs, bt, h⟩ := recordPost_eq c p key busy
    rw [h]
    exact Or.inl ⟨rfl, rfl⟩
  · exact Or.inl ⟨rfl, rfl⟩
  · exact Or.inr (Or.inl h)
  · exact Or.inr (Or.inr h)
  · exact Or.inl ⟨rfl, rfl⟩

theorem Move.evictions_cases (h : Move W T A c c') : c'.evictions = c.evictions ∨ c' = c.evict := by
  rcases h.logs_cases with h | h | ⟨drain, id, rfl⟩
  · exact Or.inl h.1
  · exact Or.inr h
  · obtain ⟨c₁, -, h, -⟩ := logs_serve W T c drain id
    exact Or.inl h

/-! ## Runs -/

/-- Every eviction so far was right exactly when the oldest item could go first. -/
def EvictsRight (c : Pool V) : Prop :=
  ∀ ev ∈ c.evictions, ev.Right ↔ ev.OldestFirst c.priorityAgingMs

theorem Moves.evictsRight (h : Moves W T A c c') (hl : Linked c) (hc : EvictsRight c) :
    EvictsRight c' := by
  induction h with
  | refl => exact hc
  | @tail d d' hmoves hstep ih =>
    have haging : d'.priorityAgingMs = d.priorityAgingMs := by
      rw [show d'.priorityAgingMs = d'.toConfig.priorityAgingMs from rfl, hstep.config]
    intro ev hev
    rw [haging]
    rcases hstep.evictions_cases with h | h
    · exact ih ev (h ▸ hev)
    · rcases evict_right_iff (Moves.linked hmoves hl) ev (h ▸ hev) with hold | hnew
      · exact ih ev hold
      · exact hnew

/-- In every run of any pool the queue is no longer than it may be, and what is evicted is
the item that has been queued longest, with whoever waited for it rejected, exactly when
that item has none of a higher priority behind it (or priorities age) and is not waited
for under an empty correlation id. -/
theorem evictions_iff (W : World) (T : ObjectText V) (config : Config)
    (minSize maxSize initial sequence : ℕ) (es : List (Event V)) :
    Always (step W T) (fun c => c.toConfig = config ∧ Bounded c ∧ EvictsRight c)
      (Pool.new W config minSize maxSize initial sequence) es := by
  have hnew := new_same (V := V) W config minSize maxSize initial sequence
  have hstart := queueOk_new (V := V) W config minSize maxSize initial sequence
  have hstep : ∀ (c : Pool V) (e : Event V),
      ((c.toConfig = config ∧ Bounded c ∧ EvictsRight c) ∧ Linked c) →
        (((step W T c e).toConfig = config ∧ Bounded (step W T c e) ∧ EvictsRight (step W T c e)) ∧
          Linked (step W T c e)) := by
    rintro c e ⟨⟨hconfig, hb, hc⟩, hl⟩
    have hmoves : Moves W T (Allowed.any V) c (step W T c e) :=
      step_moves (fun _ _ => trivial) (fun _ _ _ => trivial) (fun _ => trivial) hb e
    exact ⟨⟨hmoves.config.trans hconfig, hmoves.bounded hb, hmoves.evictsRight hl hc⟩, hmoves.linked hl⟩
  refine (always_of_step hstep ⟨⟨hnew.config, hstart.bounded, ?_⟩, ?_⟩ es).mono fun _ h => h.1
  · intro ev hev
    rw [hnew.evictions] at hev
    exact absurd hev List.not_mem_nil
  · intro item hitem
    rw [hnew.queue] at hitem
    exact absurd hitem List.not_mem_nil

/-- A pool of one worker that takes one task at a time, and drops the oldest of two queued
ones. -/
def dropping : Pool (Option (List UInt8)) :=
  .new .sound { maxTasksPerWorker := some 1, queuePolicy := .dropOldest, maxQueueLength := some 2 } 1 1 1 0

/-- Two items of a batch fill the queue; a post of a higher priority evicts the first, and
is evicted itself by the next post, before the second. -/
theorem drop_oldest_drops_newest :
    ¬ ∀ ev ∈ (run (step .sound idText) dropping
      [.post (.object none) none {} [], .batch [(.object none, none), (.object none, none)] {} none [],
        .post (.object none) none { priority := some 5 } [], .post (.object none) none {} []]).evictions,
      ev.Right := by
  intro h
  have hwrong : ∃ ev ∈ (run (step .sound idText) dropping
      [.post (.object none) none {} [], .batch [(.object none, none), (.object none, none)] {} none [],
        .post (.object none) none { priority := some 5 } [], .post (.object none) none {} []]).evictions,
      ev.queue.head? ≠ some ev.victim := by
    decide +kernel
  obtain ⟨ev, hev, hne⟩ := hwrong
  exact hne (h ev hev).1

end PerformanceHelpers.PowerPool
