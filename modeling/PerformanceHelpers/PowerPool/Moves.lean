import PerformanceHelpers.PowerPool.Events
import PerformanceHelpers.PowerPool.Posting

/- What a step of a `PowerPool` can do to tasks, requests and promises, as a sequence
   of moves (`Moves`). Every event comes down to such a sequence, so that an invariant
   is proved of the moves, once each.

   `Allowed` says which items a step queues, which requests it registers and what it
   posts past the queue; a property that rests on the caller's options says so there. -/
namespace PerformanceHelpers.PowerPool

variable {V : Type}

namespace SameTasks

variable (W : World) (c : Pool V)

theorem dropWorker (id : ℕ) : SameTasks c (c.dropWorker id) := by constructor <;> rfl

theorem swapOut (id : ℕ) : SameTasks c (c.swapOut id) := by
  unfold Pool.swapOut
  split
  · constructor <;> rfl
  · constructor <;> rfl

theorem recordLatency (id : ℕ) (duration : Option ℚ) : SameTasks c (c.recordLatency id duration) := by
  unfold Pool.recordLatency
  split
  · constructor <;> rfl
  · constructor <;> rfl

theorem addWorkers (n : ℕ) : SameTasks c (c.addWorkers W n) := by
  induction n generalizing c with
  | zero => constructor <;> rfl
  | succ n ih =>
    rw [Pool.addWorkers]
    split
    · exact tryAddWorker W c
    · exact (tryAddWorker W c).trans (ih _)

end SameTasks

/-! ## Moves -/

structure Allowed (V : Type) where
  item : QueueItem V → Prop
  request : Pool V → String → PostOptions → Prop
  post : Post V → Prop := fun _ => True

def QueueItem.Kept (item : QueueItem V) : Prop :=
  item.itemPriority = item.origin.priority.getD 0

/-- An item that a call with these options queues. A post's item keeps the deadline and the
signal; only a post's is waited for, and has a key then, unless the caller gave an empty one. -/
structure QueuedBy (o : PostOptions) (r : Route) (item : QueueItem V) : Prop where
  target : item.origin.target = o.workerId
  route : item.origin.route = r
  kept : item.Kept
  deadlineAt : item.origin.deadlineAt = o.deadlineAt
  signal : item.origin.signal = o.signal
  timed : r = .post → Pool.deadlineOf o = .ok item.deadlineAt ∧ item.signal = o.signal
  keyed : item.origin.request ≠ none →
    r = .post ∧ (item.correlationId = none → o.correlationId = some "")

def Allowed.Queues (A : Allowed V) (o : PostOptions) (r : Route) : Prop :=
  ∀ item : QueueItem V, QueuedBy o r item → A.item item

structure PostedBy (o : PostOptions) (r : Route) (now : ℚ) (aborted : List ℕ) (p : Post V) : Prop where
  route : p.origin.route = r
  deadlineAt : p.origin.deadlineAt = o.deadlineAt
  signal : p.origin.signal = o.signal
  now : p.now = now
  aborted : p.aborted = aborted

def Allowed.Posts (A : Allowed V) (o : PostOptions) (r : Route) (now : ℚ) (aborted : List ℕ) : Prop :=
  ∀ p : Post V, PostedBy o r now aborted p → A.post p

def DirectOk (p : Post V) : Prop := p.viaQueue = false ∧ ∀ t ∈ p.origin.target, p.worker = t

def Owned (c : Pool V) (s : ℕ) (key : String) : Prop :=
  ∀ e ∈ c.pending, e.key = key → (e.promise, s) ∈ c.signals

/-- A promise has been settled, or is the one under the key. -/
def Answers (c : Pool V) (n : ℕ) (key : String) : Prop :=
  (∃ s, (n, s) ∈ c.settled) ∨ ∃ e, c.entryFor? key = some e ∧ e.promise = n

/-- An item that a queue takes: there is room for it, and its listener and its key are those
of the request that waits for it. -/
structure Admitted (A : Allowed V) (c : Pool V) (item : QueueItem V) : Prop where
  allowed : A.item item
  room : Room c
  owned : ∀ s ∈ item.signal, ∀ key ∈ item.correlationId, s ∉ c.aborted ∧ Owned c s key
  answers : ∀ n ∈ item.origin.request, ∀ key ∈ item.correlationId, Answers c n key

variable (W : World) (T : ObjectText V) (A : Allowed V)

/-- One change to tasks, requests or promises. -/
inductive Move : Pool V → Pool V → Prop where
  | work (c c' : Pool V) (h : SameTasks c c') : Move c c'
  | settle (c : Pool V) (key : String) (s : Settlement) (hs : ∀ g, s ≠ .aborted g) :
      Move c (c.cleanupPendingResponse key s)
  | register (c : Pool V) (key : String) (o : PostOptions) (hsignal : ∀ s ∈ o.signal, s ∉ c.aborted)
      (hA : A.request c key o) : Move c (c.register key o)
  | turnDown (c c' : Pool V) (key : String) (o : PostOptions) (e : String)
      (h : SameTasks ((c.register key o).cleanupPendingResponse key (.rejected e)) c') : Move c c'
  | refuseAborted (c : Pool V) (o : PostOptions) (s : ℕ) : Move c (c.refuseAborted o s).1
  | post (c : Pool V) (p : Post V) (key : Option String) (busy : Bool) (hp : DirectOk p)
      (hA : A.post p) : Move c (c.recordPost p key busy)
  | listen (c : Pool V) (s : ℕ) (key : String) (hs : s ∉ c.aborted) (howned : Owned c s key) :
      Move c { c with listeners := c.listeners ++ [(s, key)] }
  | enqueue (c : Pool V) (item : QueueItem V) (h : Admitted A c item) : Move c (c.enqueue item)
  | evict (c : Pool V) (hempty : c.queuePolicy = .dropOldest) : Move c c.evict
  | serve (c : Pool V) (drain : Drain) (id : ℕ) : Move c (c.serve W T drain id).1
  | clear (c : Pool V) : Move c { c with queue := [] }
  | abort (c : Pool V) (s : ℕ) : Move c (c.abort s)

abbrev Moves : Pool V → Pool V → Prop := Relation.ReflTransGen (Move W T A)

section
variable {W : World} {T : ObjectText V} {A A' : Allowed V} {c c' : Pool V}

theorem Move.mono (hitem : ∀ item, A.item item → A'.item item)
    (hrequest : ∀ c key o, A.request c key o → A'.request c key o)
    (hpost : ∀ p, A.post p → A'.post p) (h : Move W T A c c') :
    Move W T A' c c' := by
  cases h with
  | work c' h => exact .work c c' h
  | settle key s hs => exact .settle c key s hs
  | register key o hsignal hA => exact .register c key o hsignal (hrequest c key o hA)
  | turnDown c' key o e h => exact .turnDown c c' key o e h
  | refuseAborted o s => exact .refuseAborted c o s
  | post p key busy hp hA => exact .post c p key busy hp (hpost p hA)
  | listen s key hs howned => exact .listen c s key hs howned
  | enqueue item h => exact .enqueue c item ⟨hitem item h.allowed, h.room, h.owned, h.answers⟩
  | evict hpolicy => exact .evict c hpolicy
  | serve drain id => exact .serve c drain id
  | clear => exact .clear c
  | abort s => exact .abort c s

theorem Moves.mono (hitem : ∀ item, A.item item → A'.item item)
    (hrequest : ∀ c key o, A.request c key o → A'.request c key o)
    (hpost : ∀ p, A.post p → A'.post p) (h : Moves W T A c c') :
    Moves W T A' c c' :=
  h.lift id fun _ _ => Move.mono hitem hrequest hpost

end

/-! ## What the moves of a post rest on -/

section
variable {c c' : Pool V}

def Waits (c : Pool V) (waiter : Waiter) (signal : Option ℕ) : Prop :=
  ∀ w ∈ waiter, ∀ e ∈ c.pending, e.key = w.1 → e.promise = w.2 ∧ ∀ s ∈ signal, (w.2, s) ∈ c.signals

def Entries (c c' : Pool V) : Prop :=
  (∀ e ∈ c'.pending, ∃ e' ∈ c.pending, e'.key = e.key ∧ e'.promise = e.promise) ∧
    c'.signals = c.signals ∧ c'.aborted = c.aborted

theorem Entries.trans {c'' : Pool V} (h : Entries c c') (h' : Entries c' c'') : Entries c c'' := by
  refine ⟨fun e he => ?_, h'.2.1.trans h.2.1, h'.2.2.trans h.2.2⟩
  obtain ⟨e', he', hkey', hpromise'⟩ := h'.1 e he
  obtain ⟨e'', he'', hkey, hpromise⟩ := h.1 e' he'
  exact ⟨e'', he'', hkey.trans hkey', hpromise.trans hpromise'⟩

theorem SameTasks.entries (h : SameTasks c c') : Entries c c' :=
  ⟨fun e he => ⟨e, h.pending ▸ he, rfl, rfl⟩, h.signals, h.aborted⟩

theorem Waits.of_entries {waiter : Waiter} {signal : Option ℕ} (h : Waits c waiter signal)
    (he : Entries c c') : Waits c' waiter signal := by
  intro w hw e hmem hkey
  obtain ⟨e', he', hkey', hpromise⟩ := he.1 e hmem
  obtain ⟨hn, hs⟩ := h w hw e' he' (hkey'.trans hkey)
  exact ⟨hpromise ▸ hn, he.2.1 ▸ hs⟩

variable {n : ℕ} {key : String} {q : List (QueueItem V)}

theorem Waits.owned {waiter : Waiter} {signal : Option ℕ} (h : Waits c waiter signal) {s : ℕ}
    (hs : s ∈ signal) (hw : waiter = some (key, n)) : Owned c s key := by
  intro e he hkey
  obtain ⟨hn, hsig⟩ := h _ hw e he hkey
  exact hn ▸ hsig s hs

theorem entries_cleanup (c : Pool V) (key : String) (s : Settlement) :
    Entries c (c.cleanupPendingResponse key s) := by
  rw [cleanupPendingResponse_eq]
  exact ⟨fun e he => ⟨e, (List.mem_filter.mp he).1, rfl, rfl⟩, rfl, rfl⟩

theorem entries_recordPost (c : Pool V) (p : Post V) (key : Option String) (busy : Bool) :
    Entries c (c.recordPost p key busy) := by
  obtain ⟨ws, bs, bt, h⟩ := recordPost_eq c p key busy
  rw [h]
  exact ⟨fun e he => mem_markEntries he, rfl, rfl⟩

theorem SameTasks.answers (h : SameTasks c c') (ha : Answers c n key) :
    Answers c' n key := by
  unfold Answers Pool.entryFor? at *
  rw [h.settled, h.pending]
  exact ha

/-- Whatever is settled, a promise keeps its answer. -/
theorem answers_cleanup (h : Answers c n key) (key' : String) (s : Settlement) :
    Answers (c.cleanupPendingResponse key' s) n key := by
  rw [cleanupPendingResponse_eq]
  rcases h with ⟨s', hs'⟩ | ⟨e, he, hn⟩
  · exact Or.inl ⟨s', List.mem_append_left _ hs'⟩
  · by_cases hkey : key' = key
    · subst hkey
      refine Or.inl ⟨s, List.mem_append_right _ ?_⟩
      rw [settlementOf, he, ← hn]
      exact List.mem_singleton_self _
    · refine Or.inr ⟨e, ?_, hn⟩
      have hsame : (c.pending.filter fun e => e.key != key').find? (·.key == key) =
          c.pending.find? (·.key == key) := by
        rw [List.find?_filter]
        congr 1
        funext e
        by_cases he : e.key = key
        · simp [he, bne_iff_ne.mpr (Ne.symm hkey)]
        · simp [he]
      exact hsame.trans he

theorem answers_register (h : Answers c n key) (other : String) (o : PostOptions) :
    Answers (c.register other o) n key := by
  have hc := answers_cleanup h other (.rejected s!"duplicate correlationId: {other}")
  rw [cleanupPendingResponse_eq] at hc
  rw [register_eq]
  rcases hc with ⟨s, hs⟩ | ⟨e, he, hn⟩
  · exact Or.inl ⟨s, hs⟩
  · refine Or.inr ⟨e, ?_, hn⟩
    unfold Pool.entryFor? at he ⊢
    rw [List.find?_append, he]
    rfl

/-- What an eviction does: an item leaves the queue, and its waiter is rejected. -/
theorem evict_cases (c : Pool V) : c.evict = c ∧ c.shift c.queue = none ∨
    ∃ dropped rest pending settled, c.shift c.queue = some (dropped, rest) ∧
      c.evict = { c with
        queue := rest, pending, settled
        evictions := c.evictions ++ [⟨c.queue, dropped, c.settled, settled⟩] } ∧
      (dropped.correlationId = none ∧ pending = c.pending ∧ settled = c.settled ∨
        ∃ key, dropped.correlationId = some key ∧ pending = c.pending.filter (fun e => e.key != key) ∧
          settled = c.settled ++
            settlementOf c key (.rejected "postMessage queued task dropped by policy")) := by
  unfold Pool.evict
  cases hshift : c.shift c.queue with
  | none => exact Or.inl ⟨rfl, rfl⟩
  | some p =>
    obtain ⟨dropped, rest⟩ := p
    dsimp only
    refine Or.inr ⟨dropped, rest, ?_⟩
    cases hid : dropped.correlationId with
    | none => exact ⟨c.pending, c.settled, rfl, rfl, Or.inl ⟨rfl, rfl, rfl⟩⟩
    | some key =>
      dsimp only
      rw [cleanupPendingResponse_eq]
      exact ⟨_, _, rfl, rfl, Or.inr ⟨key, rfl, rfl, rfl⟩⟩

theorem entries_evict (c : Pool V) : Entries c c.evict := by
  rcases evict_cases c with ⟨h, -⟩ | ⟨dropped, rest, pending, settled, -, h, hp⟩
  · rw [h]
    exact (SameTasks.refl c).entries
  · rw [h]
    refine ⟨fun e he => ⟨e, ?_, rfl, rfl⟩, rfl, rfl⟩
    rcases hp with ⟨-, rfl, -⟩ | ⟨key, -, rfl, -⟩
    · exact he
    · exact (List.mem_filter.mp he).1

theorem answers_evict (h : Answers c n key) : Answers c.evict n key := by
  rcases evict_cases c with ⟨hevict, -⟩ | ⟨dropped, rest, pending, settled, -, hevict, hp⟩
  · rw [hevict]
    exact h
  · rw [hevict]
    rcases hp with ⟨-, rfl, rfl⟩ | ⟨key', -, rfl, rfl⟩
    · exact h
    · have hc := answers_cleanup h key' (.rejected "postMessage queued task dropped by policy")
      rw [cleanupPendingResponse_eq] at hc
      exact hc

theorem shift_perm {rest : List (QueueItem V)} {item : QueueItem V}
    (h : c.shift q = some (item, rest)) : q.Perm (item :: rest) := by
  unfold Pool.shift at h
  split at h
  · exact takeBest_perm h
  · cases q with
    | nil => cases h
    | cons x xs =>
      cases h
      exact List.Perm.refl _

theorem shiftForReply_perm {rest : List (QueueItem V)} {item : QueueItem V}
    (h : c.shiftForReply q = some (item, rest)) : q.Perm (item :: rest) := by
  unfold Pool.shiftForReply at h
  split at h
  · exact shift_perm h
  · exact takeBest_perm h

theorem takeBest_ne_none {α : Type} (priority : α → ℚ) {xs : List α} (h : xs ≠ []) :
    takeBest priority xs ≠ none := by
  cases xs with
  | nil => exact absurd rfl h
  | cons x xs =>
    rw [takeBest]
    split
    · exact Option.some_ne_none _
    · split <;> exact Option.some_ne_none _

theorem shift_ne_none (c : Pool V) (h : q ≠ []) : c.shift q ≠ none := by
  unfold Pool.shift
  split
  · exact takeBest_ne_none _ h
  · cases q with
    | nil => exact absurd rfl h
    | cons x xs => exact Option.some_ne_none _

theorem length_evict (h : c.queue ≠ []) : c.evict.queue.length + 1 = c.queue.length := by
  rcases evict_cases c with ⟨-, hnone⟩ | ⟨dropped, rest, pending, settled, hshift, hevict, -⟩
  · exact absurd hnone (shift_ne_none c h)
  · rw [hevict, (shift_perm hshift).length_eq]
    rfl

theorem length_evict_le (c : Pool V) : c.evict.queue.length ≤ c.queue.length := by
  by_cases h : c.queue = []
  · rw [evict_of_nil h]
  · have hlen := length_evict h
    omega

theorem evict_config (c : Pool V) : c.evict.toConfig = c.toConfig := by
  rcases evict_cases c with ⟨h, -⟩ | ⟨dropped, rest, pending, settled, -, h, -⟩ <;> rw [h]

end

/-! ## The moves of a post -/

section
variable {W : World} {T : ObjectText V} {A : Allowed V} {c c' : Pool V}

theorem Moves.work (h : SameTasks c c') : Moves W T A c c' := .single (.work c c' h)

theorem Moves.settle (c : Pool V) (key : String) (e : String) :
    Moves W T A c (c.cleanupPendingResponse key (.rejected e)) :=
  .single (.settle c key (.rejected e) fun g h => by cases h)

theorem refuse_moves (c : Pool V) (waiter : Waiter) (e : String) :
    Moves W T A c (c.refuse waiter (.rejected e)).1 := by
  rcases refuse_cases c waiter (.rejected e) with ⟨-, h⟩ | ⟨key, n, -, -, h⟩
  · rw [h]
  · rw [h]
    exact Moves.settle c key e

theorem evictMany_moves (n : ℕ) (h : c.queuePolicy = .dropOldest) :
    Moves W T A c (Pool.evictMany n c) := by
  induction n generalizing c with
  | zero => exact .refl
  | succ n ih =>
    have hpolicy : c.evict.queuePolicy = .dropOldest := by
      rw [show c.evict.queuePolicy = c.evict.toConfig.queuePolicy from rfl, evict_config]
      exact h
    exact .head (.evict c h) (ih hpolicy)

theorem pushItem_moves {item : QueueItem V} (waiter : Waiter) (h : Admitted A c item) :
    Moves W T A c (c.pushItem item waiter).1 :=
  (Relation.ReflTransGen.single (.enqueue c item h)).trans
    (Moves.work (SameTasks.updateIdleState _))

variable {waiter : Waiter} {o : PostOptions} {deadlineAt : Option ℚ} {origin : Origin V}
variable {least : Option Worker}

/-- A queued request's listener settles what its caller waits for. -/
theorem queuedItem_owned (hw : Waits c' waiter o.signal)
    (hs : waiter ≠ none → ∀ s ∈ o.signal, s ∉ c'.aborted) (prepared : Prepared V)
    (deadlineAt : Option ℚ) (origin : Origin V) :
    ∀ s ∈ (c.queuedItem prepared waiter deadlineAt o origin).signal,
      ∀ key ∈ (c.queuedItem prepared waiter deadlineAt o origin).correlationId,
        s ∉ c'.aborted ∧ Owned c' s key := by
  intro s hsig key hkey
  obtain ⟨hmap, -⟩ := Option.filter_eq_some_iff.mp hkey
  obtain ⟨⟨k, n⟩, hwaiter, hk⟩ := Option.map_eq_some_iff.mp hmap
  obtain rfl : k = key := hk
  exact ⟨hs (by rw [hwaiter]; exact Option.some_ne_none _) s hsig, hw.owned hsig hwaiter⟩

theorem queuedItem_answers {prepared : Prepared V}
    (h : ∀ n ∈ origin.request, ∀ w ∈ waiter, Answers c' n w.1) :
    ∀ n ∈ (c.queuedItem prepared waiter deadlineAt o origin).origin.request,
      ∀ key ∈ (c.queuedItem prepared waiter deadlineAt o origin).correlationId, Answers c' n key := by
  intro n hn key hkey
  obtain ⟨hmap, -⟩ := Option.filter_eq_some_iff.mp hkey
  obtain ⟨w, hwaiter, rfl⟩ := Option.map_eq_some_iff.mp hmap
  exact h n hn w hwaiter

theorem enqueueOrReject_moves (hb : Bounded c)
    (hw : Waits c waiter o.signal) (hs : waiter ≠ none → ∀ s ∈ o.signal, s ∉ c.aborted)
    (prepared : Prepared V) (deadlineAt : Option ℚ)
    (hanswers : ∀ n ∈ origin.request, ∀ w ∈ waiter, Answers c n w.1)
    (hA : QueueAccepts c → A.item (c.queuedItem prepared waiter deadlineAt o origin)) :
    Moves W T A c (c.enqueueOrReject prepared waiter deadlineAt o origin).1 := by
  rcases enqueueOrReject_cases c prepared waiter deadlineAt o origin with
    ⟨ha, hev, h⟩ | ⟨ha, hroom, h⟩ | ⟨-, e, h⟩
  · rw [h]
    have hroom : Room c.evict := by
      intro cap hcap
      rw [show c.evict.maxQueueLength = c.evict.toConfig.maxQueueLength from rfl, evict_config] at hcap
      have hle := hb cap hcap
      have hlen := length_evict hev.2
      omega
    have hentries := entries_evict c
    refine .head (.evict c hev.1) (pushItem_moves waiter ⟨hA ha, hroom,
      queuedItem_owned (hw.of_entries hentries) (hentries.2.2 ▸ hs) prepared deadlineAt origin, ?_⟩)
    exact queuedItem_answers fun n hn w hwaiter => answers_evict (hanswers n hn w hwaiter)
  · rw [h]
    exact pushItem_moves waiter ⟨hA ha, hroom, queuedItem_owned hw hs prepared deadlineAt origin,
      queuedItem_answers hanswers⟩
  · rw [h]
    exact refuse_moves c waiter e

theorem listenForAbort_moves {signal : Option ℕ} {key : Option String}
    (h : ∀ s ∈ signal, ∀ k ∈ key, s ∉ c.aborted ∧ Owned c s k) :
    Moves W T A c (c.listenForAbort signal key) := by
  unfold Pool.listenForAbort
  split
  · next s k =>
    obtain ⟨hs, howned⟩ := h s rfl k rfl
    rw [if_neg hs]
    exact .single (.listen c s k hs howned)
  · exact .refl

theorem postToWorkerObj_moves {signal : Option ℕ} {id : ℕ}
    (hw : Waits c waiter signal) (hs : ∀ s ∈ signal, s ∉ c.aborted)
    (htarget : ∀ t ∈ origin.target, id = t)
    (hA : ∀ p : Post V, p.origin = origin → p.now = c.now → p.aborted = c.aborted → A.post p)
    (prepared : Prepared V) (detached : List ℕ) :
    Moves W T A c (c.postToWorkerObj W T id prepared waiter signal origin detached).1 := by
  have hattempt : SameTasks c (c.attempt W).1 := SameTasks.attempt W c
  have hpost : ∀ wire, DirectOk (c.postTo id wire false origin) := fun wire => ⟨rfl, htarget⟩
  have hallowed : ∀ wire, A.post (c.postTo id wire false origin) := fun wire => hA _ rfl rfl rfl
  rcases postToWorkerObj_cases W T c id prepared waiter signal origin detached with
    ⟨-, -, c', wire, hsame, h⟩ | ⟨-, -, c', wire, hsame, h⟩ | ⟨-, h⟩
  · rw [h]
    exact .head (.work _ _ hattempt)
      (.head (.post _ _ _ _ (hpost wire) (hallowed wire)) (Moves.work hsame))
  · rw [h]
    refine .head (.work _ _ hattempt)
      (.head (.post _ _ (waiter.map (·.1)) true (hpost wire) (hallowed wire)) ?_)
    refine (listenForAbort_moves ?_).trans (Moves.work hsame)
    have hentries := (hattempt.entries).trans (entries_recordPost (c.attempt W).1
      (c.postTo id wire false origin) (waiter.map (·.1)) true)
    intro s hsig k hk
    refine ⟨hentries.2.2 ▸ hs s hsig, ?_⟩
    obtain ⟨⟨k', n⟩, hwaiter, hk'⟩ := Option.map_eq_some_iff.mp hk
    obtain rfl : k' = k := hk'
    exact (hw.of_entries hentries).owned hsig hwaiter
  · rw [h]
    exact .head (.work _ _ hattempt) (refuse_moves _ waiter _)

def RouteOk (route : Pool.PostRoute) (target : Option ℕ) : Prop :=
  match route with
  | .worker id => ∀ t ∈ target, id = t
  | .grow | .fallback _ => target = none
  | .refuse _ | .queue => True

theorem routeOf_ok {target : Option ℕ}
    (h : ∀ w ∈ least, ∀ t ∈ target, w.id = t) : RouteOk (c.routeOf least target) target := by
  unfold Pool.routeOf
  split
  · split <;> exact trivial
  · split
    · next w hw => exact h w (Option.filter_eq_some_iff.mp hw).1
    · split
      · exact trivial
      · next htarget =>
        have hnone : target = none := by simpa using htarget
        split
        · exact hnone
        · split
          · exact trivial
          · split
            · exact trivial
            · exact hnone

theorem leastFor_ok (c : Pool V) (target : Option ℕ) :
    ∀ w ∈ (c.leastFor W target).2, ∀ t ∈ target, w.id = t := by
  intro w hw t ht
  obtain rfl : target = some t := ht
  have hfind : c.worker? t = some w := hw
  simpa using List.find?_some hfind

theorem tryAddWorker_now (c : Pool V) : (c.tryAddWorker W).1.now = c.now := by
  unfold Pool.tryAddWorker
  split <;> rfl

theorem takeRoute_moves {route : Pool.PostRoute}
    (hb : Bounded c) (hw : Waits c waiter o.signal) (hs : ∀ s ∈ o.signal, s ∉ c.aborted)
    (hroute : RouteOk route origin.target)
    (hanswers : ∀ n ∈ origin.request, ∀ w ∈ waiter, Answers c n w.1) (prepared : Prepared V)
    (deadlineAt : Option ℚ) (detached : List ℕ)
    (hA : route = .queue → QueueAccepts c → A.item (c.queuedItem prepared waiter deadlineAt o origin))
    (hP : ∀ p : Post V, p.origin = origin → p.now = c.now → p.aborted = c.aborted → A.post p) :
    Moves W T A c (c.takeRoute W T route prepared waiter deadlineAt o origin detached).1 := by
  have hnoTarget : ∀ id, origin.target = none → ∀ t ∈ origin.target, id = t := by
    intro id h t ht
    rw [h] at ht
    cases ht
  cases route with
  | refuse error => exact refuse_moves c waiter error
  | queue => exact enqueueOrReject_moves hb hw (fun _ => hs) prepared deadlineAt hanswers (hA rfl)
  | worker id => exact postToWorkerObj_moves hw hs hroute hP prepared detached
  | fallback id =>
    have hadvance : SameTasks c c.advance := SameTasks.advance c
    have hw' : Waits c.advance waiter none := fun w hmem e he hkey =>
      ⟨(hw.of_entries hadvance.entries w hmem e he hkey).1, fun s hs => (by cases hs)⟩
    exact .head (.work _ _ hadvance)
      (postToWorkerObj_moves hw' (fun s hs => (by cases hs)) (hnoTarget id hroute) hP prepared detached)
  | grow =>
    unfold Pool.takeRoute Pool.tryGrowPool
    dsimp only
    have hadd := SameTasks.tryAddWorker W c
    have hP' : ∀ p : Post V, p.origin = origin → p.now = (c.tryAddWorker W).1.now →
        p.aborted = (c.tryAddWorker W).1.aborted → A.post p := by
      rw [tryAddWorker_now, hadd.aborted]
      exact hP
    split
    · exact .head (.work _ _ hadd) (refuse_moves _ waiter _)
    · next id hid =>
      exact .head (.work _ _ hadd) (postToWorkerObj_moves (hw.of_entries hadd.entries)
        (hadd.aborted ▸ hs) (hnoTarget id hroute) hP' prepared detached)

theorem postFor_moves {m : Message V} {tr : TransferList}
    {detached : List ℕ}
    (hb : Bounded c) (hw : Waits c waiter o.signal) (hs : ∀ s ∈ o.signal, s ∉ c.aborted)
    (hanswers : ∀ w ∈ waiter, Answers c w.2 w.1) (hleast : ∀ w ∈ least, ∀ t ∈ o.workerId, w.id = t)
    (hdeadline : Pool.deadlineOf o = .ok deadlineAt)
    (hkey : ∀ w ∈ waiter, w.1 = "" → o.correlationId = some "")
    (hA : (∀ d ∈ deadlineAt, c.now < d) → c.routeOf least o.workerId = .queue → QueueAccepts c →
      A.Queues o .post)
    (hP : (∀ d ∈ deadlineAt, c.now < d) → A.Posts o .post c.now c.aborted) :
    Moves W T A c (c.postFor W T least m tr waiter deadlineAt o detached).1 := by
  unfold Pool.postFor
  split
  · exact refuse_moves c waiter _
  · next hdead =>
    have hlater : ∀ d ∈ deadlineAt, c.now < d := by
      intro d hd
      by_contra hle
      apply hdead
      rw [show deadlineAt = some d from hd]
      simpa using hle
    have hroute : RouteOk (c.routeOf least o.workerId) (Pool.originOf m tr o waiter).target :=
      routeOf_ok hleast
    have hrequest : ∀ n ∈ (Pool.originOf m tr o waiter).request, ∀ w ∈ waiter, Answers c n w.1 := by
      intro n hn w hwaiter
      obtain ⟨w', hw', rfl⟩ := Option.map_eq_some_iff.mp hn
      obtain rfl : w' = w := Option.some.inj (hw'.symm.trans hwaiter)
      exact hanswers w' hw'
    apply takeRoute_moves hb hw hs hroute hrequest _ deadlineAt detached
    · intro hr ha
      refine hA hlater hr ha _ ⟨rfl, rfl, rfl, rfl, rfl, fun _ => ⟨hdeadline, rfl⟩, ?_⟩
      intro hrequest
      refine ⟨rfl, fun hnone => ?_⟩
      obtain ⟨w, hwaiter⟩ : ∃ w, waiter = some w := by
        cases waiter with
        | none => exact absurd rfl hrequest
        | some w => exact ⟨w, rfl⟩
      refine hkey w hwaiter ?_
      by_contra hne
      have hkept : (waiter.map (·.1)).filter (· ≠ "") = some w.1 := by
        rw [hwaiter]
        simp [hne]
      exact absurd (hkept.symm.trans hnone) (Option.some_ne_none _)
    · intro p horigin hnow haborted
      exact hP hlater p ⟨by rw [horigin]; rfl, by rw [horigin]; rfl, by rw [horigin]; rfl, hnow, haborted⟩

theorem waits_register (c : Pool V) (key : String) (o : PostOptions) :
    Waits (c.register key o) (some (key, c.nextPromise)) o.signal := by
  rintro w hw e he hkey
  cases hw
  rw [register_eq] at he ⊢
  rcases List.mem_append.mp he with he | he
  · have hne := (List.mem_filter.mp he).2
    rw [hkey] at hne
    simp at hne
  · obtain rfl := List.mem_singleton.mp he
    refine ⟨rfl, fun s hs => List.mem_append_right _ ?_⟩
    rw [show o.signal = some s from hs]
    exact List.mem_singleton_self _

theorem bounded_register {key : String} (hb : Bounded c) : Bounded (c.register key o) := by
  rw [register_eq]
  exact hb

theorem SameTasks.bounded (h : SameTasks c c') (hb : Bounded c) : Bounded c' := by
  unfold Bounded at *
  rw [h.queue, show c'.maxQueueLength = c'.toConfig.maxQueueLength from rfl, h.config]
  exact hb

theorem routeOf_queueAccepts {key : String} (h : QueueAccepts (c.register key o)) :
    QueueAccepts c := by
  rw [register_eq] at h
  exact h

theorem SameTasks.cleanup (h : SameTasks c c') (key : String) (s : Settlement) :
    SameTasks (c.cleanupPendingResponse key s) (c'.cleanupPendingResponse key s) := by
  have hentry : c'.entryFor? key = c.entryFor? key := by
    unfold Pool.entryFor?
    rw [h.pending]
  rw [cleanupPendingResponse_eq, cleanupPendingResponse_eq, settlementOf, settlementOf, hentry]
  exact ⟨h.config, h.queue, by rw [h.pending], h.listeners, h.aborted, h.nextPromise,
    by rw [h.settled], h.signals, h.posted, h.enqueued, h.evictions, h.discards, h.takes⟩

theorem correlationIdFor_now (c : Pool V) (o : PostOptions) : (c.correlationIdFor o).1.now = c.now := by
  obtain ⟨n, h⟩ := correlationIdFor_eq c o
  rw [h]

/-- Whether a request is refused is a matter of the state before it is registered. -/
theorem refuses_register (W : World) (c : Pool V) (least : Option Worker) (deadlineAt : Option ℚ)
    (o : PostOptions) :
    Refuses W ((c.correlationIdFor o).1.register (c.correlationIdFor o).2 o) least deadlineAt o ↔
      Refuses W c least deadlineAt o := by
  unfold Refuses
  rw [routeOf_register, unserved_register, register_eq]
  obtain ⟨n, h⟩ := correlationIdFor_eq c o
  have hroute : (c.correlationIdFor o).1.routeOf least o.workerId = c.routeOf least o.workerId := by
    rw [h]
    rfl
  rw [hroute, h]
  exact or_congr Iff.rfl (by cases c.routeOf least o.workerId <;> exact Iff.rfl)

def Stays (W : World) (c : Pool V) (least : Option Worker) (deadlineAt : Option ℚ) (o : PostOptions) :
    Prop :=
  Refuses W c least deadlineAt o → (c.correlationIdFor o).2 = ""

theorem postRequest_moves {m : Message V} {tr : TransferList}
    {detached : List ℕ} (hb : Bounded c)
    (hs : ∀ s ∈ o.signal, s ∉ c.aborted) (hleast : ∀ w ∈ least, ∀ t ∈ o.workerId, w.id = t)
    (hR : m.isPlainObject = true → Stays W c least deadlineAt o →
      A.request (c.correlationIdFor o).1 (c.correlationIdFor o).2 o)
    (hdeadline : Pool.deadlineOf o = .ok deadlineAt)
    (hA : (∀ d ∈ deadlineAt, c.now < d) → c.routeOf least o.workerId = .queue → QueueAccepts c →
      A.Queues o .post)
    (hP : (∀ d ∈ deadlineAt, c.now < d) → A.Posts o .post c.now c.aborted) :
    Moves W T A c (c.postRequest W T least m tr deadlineAt o detached).1 := by
  have hid := SameTasks.correlationIdFor c o
  unfold Pool.postRequest
  dsimp only
  split
  · next hplain =>
    refine .head (.work _ _ hid) ?_
    by_cases hstays : Stays W c least deadlineAt o
    · refine .head (.register _ _ o (hid.aborted ▸ hs) (hR hplain hstays)) ?_
      have haborted : ((c.correlationIdFor o).1.register (c.correlationIdFor o).2 o).aborted =
          c.aborted := by
        rw [register_eq]
        exact hid.aborted
      have hnow : ((c.correlationIdFor o).1.register (c.correlationIdFor o).2 o).now = c.now := by
        rw [register_eq]
        exact correlationIdFor_now c o
      apply postFor_moves (bounded_register (hid.bounded hb)) (waits_register _ _ o)
      · rw [haborted]
        exact hs
      · rintro w ⟨⟩
        exact Or.inr (entry_register _ _ o)
      · exact hleast
      · exact hdeadline
      · rintro w ⟨⟩ hempty
        exact correlationIdFor_eq_empty.mp hempty
      · intro hlater hr ha
        have ha' := routeOf_queueAccepts ha
        rw [routeOf_register] at hr
        rw [hnow] at hlater
        obtain ⟨n, hn⟩ := correlationIdFor_eq c o
        rw [hn] at hr ha'
        exact hA hlater hr ha'
      · rw [hnow, haborted]
        exact hP
    · -- the waiter is rejected before anything is done for it
      obtain ⟨hrefuses, hkey⟩ := Classical.not_imp.mp hstays
      obtain ⟨c', e, hsame, h⟩ := postFor_refused W T
        (some ((c.correlationIdFor o).2, (c.correlationIdFor o).1.nextPromise)) deadlineAt o detached
        ((refuses_register W c least deadlineAt o).mpr hrefuses)
        (Pool.withCorrelationId T m (c.correlationIdFor o).2) tr
      rw [h]
      unfold Pool.refuse
      dsimp only
      rw [if_neg hkey]
      exact .single (.turnDown _ _ _ o e (hsame.cleanup _ _))
  · exact Moves.work hid

end

structure Enters (c : Pool V) (m : Message V) (o : PostOptions) (deadlineAt : Option ℚ) : Prop where
  running : c.terminated = false
  deadline : Pool.deadlineOf o = .ok deadlineAt
  signal : ∀ s ∈ o.signal, s ∉ c.aborted
  plain : o.wantResponse = true → m.isPlainObject = true

def Queues (W : World) (c : Pool V) (m : Message V) (o : PostOptions) : Prop :=
  (∃ deadlineAt, Enters c m o deadlineAt ∧ ∀ d ∈ deadlineAt, c.now < d) ∧
    (c.leastFor W o.workerId).1.routeOf (c.leastFor W o.workerId).2 o.workerId = .queue ∧ QueueAccepts c

def Registers (W : World) (c : Pool V) (m : Message V) (o : PostOptions) : Prop :=
  o.wantResponse = true ∧ ∃ deadlineAt, Enters c m o deadlineAt ∧
    Stays W (c.leastFor W o.workerId).1 (c.leastFor W o.workerId).2 deadlineAt o

section
variable {W : World} {T : ObjectText V} {A : Allowed V} {c c' : Pool V}

theorem leastFor_now (c : Pool V) (target : Option ℕ) : (c.leastFor W target).1.now = c.now := by
  unfold Pool.leastFor
  split
  · rfl
  · split
    · rfl
    · unfold Pool.selectWorker
      dsimp only
      repeat' split
      all_goals rfl

theorem SameTasks.queueAccepts (h : SameTasks c c') : QueueAccepts c' ↔ QueueAccepts c := by
  unfold QueueAccepts Evicts Room
  rw [h.queue, show c'.queuePolicy = c'.toConfig.queuePolicy from rfl,
    show c'.maxQueueLength = c'.toConfig.maxQueueLength from rfl, h.config]

theorem postMessageInner_of_enters {m : Message V} {tr : TransferList} {o : PostOptions}
    {deadlineAt : Option ℚ} (h : Enters c m o deadlineAt) (hwant : o.wantResponse = true)
    (detached : List ℕ) :
    c.postMessageInner W T m tr o detached =
      (((c.leastFor W o.workerId).1.correlationIdFor o).1.register
          ((c.leastFor W o.workerId).1.correlationIdFor o).2 o).postFor W T (c.leastFor W o.workerId).2
        (Pool.withCorrelationId T m ((c.leastFor W o.workerId).1.correlationIdFor o).2) tr
        (some (((c.leastFor W o.workerId).1.correlationIdFor o).2,
          ((c.leastFor W o.workerId).1.correlationIdFor o).1.nextPromise)) deadlineAt o detached := by
  have hsignal : o.signal.filter (· ∈ c.aborted) = none := by
    rw [Option.filter_eq_none_iff]
    intro s hs
    simpa using h.signal s hs
  unfold Pool.postMessageInner
  rw [if_neg (by rw [h.running]; exact Bool.false_ne_true), h.deadline]
  dsimp only
  rw [hsignal]
  dsimp only
  rw [if_pos hwant]
  unfold Pool.postRequest
  dsimp only
  rw [if_pos (h.plain hwant)]

theorem postMessageInner_moves {m : Message V} {tr : TransferList} {o : PostOptions}
    {detached : List ℕ} (hb : Bounded c)
    (hR : Registers W c m o → A.request ((c.leastFor W o.workerId).1.correlationIdFor o).1
      ((c.leastFor W o.workerId).1.correlationIdFor o).2 o)
    (hA : Queues W c m o → A.Queues o .post)
    (hP : ∀ deadlineAt, Enters c m o deadlineAt → (∀ d ∈ deadlineAt, c.now < d) →
      A.Posts o .post c.now c.aborted) :
    Moves W T A c (c.postMessageInner W T m tr o detached).1 := by
  have hsame := SameTasks.leastFor W c o.workerId
  unfold Pool.postMessageInner
  split
  · exact .refl
  · next hrunning =>
    split
    · exact .refl
    · next deadlineAt hdeadline =>
      dsimp only
      refine .head (.work _ _ hsame) ?_
      split
      · next s hs => exact .single (.refuseAborted _ o s)
      · next hs =>
        have hsignal : ∀ s ∈ o.signal, s ∉ c.aborted := by
          intro s hsig hab
          have hnot := Option.filter_eq_none_iff.mp hs s hsig
          simp [hab] at hnot
        have henters (hplain : o.wantResponse = true → m.isPlainObject = true) :
            Enters c m o deadlineAt := ⟨by simpa using hrunning, hdeadline, hsignal, hplain⟩
        have hqueues (hplain : o.wantResponse = true → m.isPlainObject = true)
            (hlater : ∀ d ∈ deadlineAt, (c.leastFor W o.workerId).1.now < d)
            (hroute : (c.leastFor W o.workerId).1.routeOf (c.leastFor W o.workerId).2 o.workerId = .queue)
            (ha : QueueAccepts (c.leastFor W o.workerId).1) : A.Queues o .post :=
          hA ⟨⟨deadlineAt, henters hplain, leastFor_now (W := W) c o.workerId ▸ hlater⟩, hroute,
            hsame.queueAccepts.mp ha⟩
        have hposts (hplain : o.wantResponse = true → m.isPlainObject = true)
            (hlater : ∀ d ∈ deadlineAt, (c.leastFor W o.workerId).1.now < d) :
            A.Posts o .post (c.leastFor W o.workerId).1.now (c.leastFor W o.workerId).1.aborted := by
          rw [leastFor_now] at hlater ⊢
          rw [hsame.aborted]
          exact hP deadlineAt (henters hplain) hlater
        split
        · next hwant =>
          by_cases hplain : m.isPlainObject = true
          · apply postRequest_moves (hsame.bounded hb) (hsame.aborted ▸ hsignal) (leastFor_ok c o.workerId)
            · intro _ hstays
              exact hR ⟨hwant, deadlineAt, henters fun _ => hplain, hstays⟩
            · exact hdeadline
            · exact hqueues fun _ => hplain
            · exact hposts fun _ => hplain
          · unfold Pool.postRequest
            dsimp only
            rw [if_neg hplain]
            exact Moves.work (SameTasks.correlationIdFor _ o)
        · next hwant =>
          apply postFor_moves (hsame.bounded hb)
          · rintro w ⟨⟩
          · exact hsame.aborted ▸ hsignal
          · rintro w ⟨⟩
          · exact leastFor_ok c o.workerId
          · exact hdeadline
          · rintro w ⟨⟩
          · exact hqueues fun h => absurd h hwant
          · exact hposts fun h => absurd h hwant

end

/-! ## Draining -/

section
variable {c : Pool V}

def Shifts (shift : Pool V → List (QueueItem V) → Option (QueueItem V × List (QueueItem V))) : Prop :=
  ∀ (c : Pool V) (q rest : List (QueueItem V)) (item : QueueItem V),
    shift c q = some (item, rest) → q.Perm (item :: rest)

theorem shifts_shiftOf (drain : Drain) : Shifts (V := V) (Pool.shiftOf drain) := by
  intro c q rest item h
  cases drain with
  | inline => exact shiftForReply_perm h
  | dispatch => exact shift_perm h

inductive Discards : Pool V → Pool V → Prop where
  | done (c : Pool V) : Discards c c
  | next (c c' : Pool V) (item : QueueItem V) (rest : List (QueueItem V))
      (hperm : c.queue.Perm (item :: rest)) (hdead : item.live c.now c.aborted = false)
      (h : Discards ({ c with queue := rest }.discard item) c') : Discards c c'

theorem takeLive_spec {shift : Pool V → List (QueueItem V) → Option (QueueItem V × List (QueueItem V))}
    (hshift : Shifts shift) (n : ℕ) (c : Pool V) :
    ∃ c', Discards c c' ∧
      ((Pool.takeLive shift n c) = (c', none) ∨
        ∃ item rest, c'.queue.Perm (item :: rest) ∧ item.live c'.now c'.aborted = true ∧
          Pool.takeLive shift n c = ({ c' with queue := rest }, some item)) := by
  induction n generalizing c with
  | zero => exact ⟨c, .done c, Or.inl rfl⟩
  | succ n ih =>
    rw [Pool.takeLive]
    cases htake : shift c c.queue with
    | none => exact ⟨c, .done c, Or.inl rfl⟩
    | some p =>
      obtain ⟨item, rest⟩ := p
      have hperm := hshift c c.queue rest item htake
      dsimp only
      cases hlive : item.live c.now c.aborted with
      | true =>
        rw [if_pos rfl]
        exact ⟨c, .done c, Or.inr ⟨item, rest, hperm, hlive, rfl⟩⟩
      | false =>
        rw [if_neg Bool.false_ne_true]
        obtain ⟨c', hd, hr⟩ := ih ({ c with queue := rest }.discard item)
        exact ⟨c', .next c c' item rest hperm hlive hd, hr⟩

def TellsLate (signal : Option ℕ) (s : Settlement) : Prop :=
  (∃ e, s = .rejected e) ∨ ∃ g, signal = some g ∧ s = .aborted g

theorem discard_eq (c : Pool V) (item : QueueItem V) :
    ∃ c', (item.correlationId = none ∧ c' = c ∨
        ∃ key s, item.correlationId = some key ∧ TellsLate item.signal s ∧
          c' = c.cleanupPendingResponse key s) ∧
      c.discard item = { c' with discards := c.discards ++ [⟨item, c.settled, c'.settled⟩] } := by
  unfold Pool.discard
  cases hid : item.correlationId with
  | none => exact ⟨c, Or.inl ⟨rfl, rfl⟩, rfl⟩
  | some key =>
    refine ⟨_, Or.inr ⟨key, _, rfl, ?_, rfl⟩, rfl⟩
    cases hs : item.signal.filter (· ∈ c.aborted) with
    | none => exact Or.inl ⟨_, rfl⟩
    | some s => exact Or.inr ⟨s, (Option.filter_eq_some_iff.mp hs).1, rfl⟩

/-- Discarding touches what is pending, and the log. -/
theorem discard_frame (c : Pool V) (item : QueueItem V) :
    ∃ pending settled discards, c.discard item = { c with pending, settled, discards } := by
  obtain ⟨c', hc', h⟩ := discard_eq c item
  rw [h]
  rcases hc' with ⟨-, rfl⟩ | ⟨key, s, -, -, rfl⟩
  · exact ⟨_, _, _, rfl⟩
  · rw [cleanupPendingResponse_eq]
    exact ⟨_, _, _, rfl⟩

theorem Discards.frame {c' : Pool V} (h : Discards c c') :
    ∃ queue pending settled discards, c' = { c with queue, pending, settled, discards } := by
  induction h with
  | done c => exact ⟨c.queue, c.pending, c.settled, c.discards, rfl⟩
  | next c c' item rest hperm hdead h ih =>
    obtain ⟨q, p, s, ds, ih⟩ := ih
    obtain ⟨p', s', ds', hd⟩ := discard_frame { c with queue := rest } item
    rw [hd] at ih
    exact ⟨q, p, s, ds, ih⟩

theorem queue_discard (c : Pool V) (item : QueueItem V) : (c.discard item).queue = c.queue := by
  obtain ⟨p, s, ds, h⟩ := discard_frame c item
  rw [h]

theorem Discards.subperm {c' : Pool V} (h : Discards c c') : c'.queue.Subperm c.queue := by
  induction h with
  | done c => exact List.Subperm.refl _
  | next c c' item rest hperm hdead h ih =>
    rw [queue_discard] at ih
    have hsub : rest.Subperm c.queue := (List.sublist_cons_self item rest).subperm.trans hperm.symm.subperm
    exact ih.trans hsub

/-- What a drain comes to: dead items are discarded, and a live one, if there is one, is
taken and posted, or lost where the worker's `postMessage` throws. -/
theorem serve_cases (W : World) (T : ObjectText V) (c : Pool V) (drain : Drain) (id : ℕ) :
    ∃ c', Discards c c' ∧ ((c.serve W T drain id).1 = c' ∨
      ∃ item rest c'', c'.queue.Perm (item :: rest) ∧ item.live c'.now c'.aborted = true ∧
        SameTasks { c' with
          queue := rest
          takes := c'.takes ++ [⟨drain, c.now, c.aborted, c.queue, item⟩] } c'' ∧
        ((c.serve W T drain id).1 = c'' ∨
          ∃ p : Post V, p.viaQueue = true ∧ p.origin = item.origin ∧ p.worker = id ∧
            p.now = c'.now ∧ p.aborted = c'.aborted ∧
            (c.serve W T drain id).1 = (c''.recordPost p item.correlationId true).listenForAbort
              item.signal item.correlationId)) := by
  obtain ⟨c', hd, h | ⟨item, rest, hperm, hlive, h⟩⟩ := takeLive_spec (shifts_shiftOf drain)
    c.queue.length c
  · refine ⟨c', hd, Or.inl ?_⟩
    unfold Pool.serve Pool.takeTask
    rw [h]
  · refine ⟨c', hd, Or.inr ⟨item, rest, ?_⟩⟩
    unfold Pool.serve Pool.takeTask Pool.dispatchItem
    rw [h]
    dsimp only
    generalize htaken : ({ c' with
      queue := rest
      takes := c'.takes ++ [⟨drain, c.now, c.aborted, c.queue, item⟩] } : Pool V) = taken
    refine ⟨(taken.attempt W).1, hperm, hlive, SameTasks.attempt W taken, ?_⟩
    cases haccepts : W.accepts taken.attempts with
    | true =>
      obtain ⟨wire, hdispatch⟩ := dispatchToWorker_of_accepts T haccepts id
        (taken.encodeFor T id item.toPrepared) item.correlationId item.signal true item.origin
      rw [hdispatch]
      refine Or.inr ⟨taken.postTo id wire true item.origin, rfl, rfl, rfl, ?_, ?_, rfl⟩
      · rw [← htaken]
        rfl
      · rw [← htaken]
        rfl
    | false =>
      rw [dispatchToWorker_of_throws T haccepts]
      exact Or.inl rfl

end

/-! ## The bound -/

section
variable {W : World} {T : ObjectText V} {A : Allowed V} {c c' : Pool V}

theorem Bounded.of_le (hb : Bounded c) (hconfig : c'.toConfig = c.toConfig)
    (hlen : c'.queue.length ≤ c.queue.length) : Bounded c' := by
  intro cap hcap
  rw [show c'.maxQueueLength = c'.toConfig.maxQueueLength from rfl, hconfig] at hcap
  exact hlen.trans (hb cap hcap)

theorem queue_listenForAbort (c : Pool V) (signal : Option ℕ) (key : Option String) :
    (c.listenForAbort signal key).queue = c.queue ∧
      (c.listenForAbort signal key).toConfig = c.toConfig := by
  unfold Pool.listenForAbort
  split
  · split
    · rw [cleanupPendingResponse_eq]
      exact ⟨rfl, rfl⟩
    · exact ⟨rfl, rfl⟩
  · exact ⟨rfl, rfl⟩

theorem queue_recordPost (c : Pool V) (p : Post V) (key : Option String) (busy : Bool) :
    (c.recordPost p key busy).queue = c.queue ∧ (c.recordPost p key busy).toConfig = c.toConfig := by
  obtain ⟨ws, bs, bt, h⟩ := recordPost_eq c p key busy
  rw [h]
  exact ⟨rfl, rfl⟩

theorem serve_config (c : Pool V) (drain : Drain) (id : ℕ) :
    (c.serve W T drain id).1.toConfig = c.toConfig := by
  obtain ⟨c', hd, h⟩ := serve_cases W T c drain id
  obtain ⟨q, p, s, ds, rfl⟩ := hd.frame
  rcases h with h | ⟨item, rest, c'', -, -, hsame, h⟩
  · rw [h]
  · rcases h with h | ⟨p, -, -, -, -, -, h⟩
    · rw [h]
      exact hsame.config
    · have hl := queue_listenForAbort (c''.recordPost p item.correlationId true) item.signal
        item.correlationId
      rw [h, hl.2, (queue_recordPost c'' p item.correlationId true).2]
      exact hsame.config

theorem abort_frame (c : Pool V) (s : ℕ) :
    ∃ aborted listeners pending settled, c.abort s = { c with aborted, listeners, pending, settled } := by
  unfold Pool.abort
  split
  · exact ⟨c.aborted, c.listeners, c.pending, c.settled, rfl⟩
  · dsimp only
    generalize ((c.listeners.filter (·.1 = s)).map (·.2)) = keys
    have hfold : ∀ (keys : List String) (d : Pool V), ∃ pending settled,
        keys.foldl (fun c key => c.cleanupPendingResponse key (.aborted s)) d =
          { d with pending, settled } := by
      intro keys
      induction keys with
      | nil => exact fun d => ⟨d.pending, d.settled, rfl⟩
      | cons key keys ih =>
        intro d
        obtain ⟨pending, settled, h⟩ := ih (d.cleanupPendingResponse key (.aborted s))
        rw [List.foldl_cons, h, cleanupPendingResponse_eq]
        exact ⟨pending, settled, rfl⟩
    obtain ⟨pending, settled, h⟩ := hfold keys
      { c with aborted := s :: c.aborted, listeners := c.listeners.filter (·.1 ≠ s) }
    rw [h]
    exact ⟨_, _, pending, settled, rfl⟩

/-- What is queued and what is logged stay as they are. -/
structure SameLogs (c c' : Pool V) : Prop where
  config : c'.toConfig = c.toConfig
  queue : c'.queue = c.queue
  posted : c'.posted = c.posted
  enqueued : c'.enqueued = c.enqueued
  evictions : c'.evictions = c.evictions
  discards : c'.discards = c.discards
  takes : c'.takes = c.takes

theorem SameTasks.logs (h : SameTasks c c') : SameLogs c c' :=
  ⟨h.config, h.queue, h.posted, h.enqueued, h.evictions, h.discards, h.takes⟩

/-- Only six moves touch the queue or the logs. -/
theorem Move.logs (h : Move W T A c c') : SameLogs c c' ∨
    (∃ p key busy, (DirectOk p ∧ A.post p) ∧ c' = c.recordPost p key busy) ∨
    (∃ item, Admitted A c item ∧ c' = c.enqueue item) ∨ c' = c.evict ∨
    (∃ drain id, c' = (c.serve W T drain id).1) ∨ c' = { c with queue := [] } := by
  cases h with
  | work c' h => exact Or.inl h.logs
  | settle key s hs =>
    rw [cleanupPendingResponse_eq]
    exact Or.inl (by constructor <;> rfl)
  | register key o hsignal hA =>
    rw [register_eq]
    exact Or.inl (by constructor <;> rfl)
  | turnDown c' key o e h =>
    rw [cleanupPendingResponse_eq, register_eq] at h
    exact Or.inl ⟨h.config, h.queue, h.posted, h.enqueued, h.evictions, h.discards, h.takes⟩
  | refuseAborted o s =>
    unfold Pool.refuseAborted
    split <;> exact Or.inl (by constructor <;> rfl)
  | post p key busy hp hA => exact Or.inr (Or.inl ⟨p, key, busy, ⟨hp, hA⟩, rfl⟩)
  | listen s key hs howned => exact Or.inl (by constructor <;> rfl)
  | enqueue item h => exact Or.inr (Or.inr (Or.inl ⟨item, h, rfl⟩))
  | evict hpolicy => exact Or.inr (Or.inr (Or.inr (Or.inl rfl)))
  | serve drain id => exact Or.inr (Or.inr (Or.inr (Or.inr (Or.inl ⟨drain, id, rfl⟩))))
  | clear => exact Or.inr (Or.inr (Or.inr (Or.inr (Or.inr rfl))))
  | abort s =>
    obtain ⟨ab, ls, p, st, h⟩ := abort_frame c s
    rw [h]
    exact Or.inl (by constructor <;> rfl)

theorem Move.config (h : Move W T A c c') : c'.toConfig = c.toConfig := by
  rcases h.logs with h | ⟨p, key, busy, -, rfl⟩ | ⟨item, -, rfl⟩ | rfl | ⟨drain, id, rfl⟩ | rfl
  · exact h.config
  · exact (queue_recordPost c p key busy).2
  · rfl
  · exact evict_config c
  · exact serve_config c drain id
  · rfl

theorem Moves.config (h : Moves W T A c c') : c'.toConfig = c.toConfig := by
  induction h with
  | refl => rfl
  | tail _ hstep ih => exact hstep.config.trans ih

/-! ## What moves add -/

structure QueueOk (c : Pool V) : Prop where
  bounded : Bounded c
  kept : ∀ item ∈ c.queue, item ∈ c.enqueued

theorem Discards.leftOut (h : Discards c c') : LeftOut c c' := by
  obtain ⟨q, p, s, ds, h⟩ := h.frame
  rw [h]
  exact ⟨rfl, rfl⟩

theorem serve_logs (c : Pool V) (drain : Drain) (id : ℕ) :
    (c.serve W T drain id).1.queue.Subperm c.queue ∧
      (c.serve W T drain id).1.enqueued = c.enqueued ∧
      ((c.serve W T drain id).1.posted = c.posted ∨
        ∃ p : Post V, ∃ item ∈ c.queue, p.origin = item.origin ∧
          item.live p.now p.aborted = true ∧
          (c.serve W T drain id).1.posted = c.posted ++ [p]) := by
  obtain ⟨c', hd, h⟩ := serve_cases W T c drain id
  have hleft := hd.leftOut
  rcases h with h | ⟨item, rest, c'', hperm, hlive, hsame, h⟩
  · rw [h]
    exact ⟨hd.subperm, hleft.2, Or.inl hleft.1⟩
  · have hmem : item ∈ c.queue := hd.subperm.subset (hperm.mem_iff.mpr List.mem_cons_self)
    have hrest : c''.queue.Subperm c.queue := by
      rw [hsame.queue]
      exact ((List.sublist_cons_self item rest).subperm.trans hperm.symm.subperm).trans hd.subperm
    have hleft' : LeftOut c c'' := ⟨hsame.posted.trans hleft.1, hsame.enqueued.trans hleft.2⟩
    rcases h with h | ⟨p, -, horigin, -, hnow, haborted, h⟩
    · rw [h]
      exact ⟨hrest, hleft'.2, Or.inl hleft'.1⟩
    · obtain ⟨ws, bs, bt, hrecord⟩ := recordPost_eq c'' p item.correlationId true
      have hlisten := leftOut_listen (c''.recordPost p item.correlationId true) item.signal
        item.correlationId
      have hqueue := queue_listenForAbort (c''.recordPost p item.correlationId true) item.signal
        item.correlationId
      have hlive' : item.live p.now p.aborted = true := by
        rw [hnow, haborted]
        exact hlive
      rw [h, hqueue.1, hlisten.1, hlisten.2, hrecord]
      exact ⟨hrest, hleft'.2, Or.inr ⟨p, item, hmem, horigin, hlive', by rw [← hleft'.1]⟩⟩

/-- A move puts one item in the queue, or takes some out. -/
theorem Move.queue_cases (h : Move W T A c c') :
    c'.queue.Subperm c.queue ∧ c'.enqueued = c.enqueued ∨
      ∃ item, Admitted A c item ∧ c'.queue = c.queue ++ [item] ∧
        c'.enqueued = c.enqueued ++ [item] := by
  rcases h.logs with h | ⟨p, key, busy, -, rfl⟩ | ⟨item, hitem, rfl⟩ | rfl | ⟨drain, id, rfl⟩ | rfl
  · exact Or.inl ⟨h.queue ▸ List.Subperm.refl _, h.enqueued⟩
  · obtain ⟨ws, bs, bt, h⟩ := recordPost_eq c p key busy
    rw [h]
    exact Or.inl ⟨List.Subperm.refl _, rfl⟩
  · exact Or.inr ⟨item, hitem, rfl, rfl⟩
  · refine Or.inl ⟨?_, (leftOut_evict c).2⟩
    rcases evict_cases c with ⟨h, -⟩ | ⟨dropped, rest, pending, settled, hshift, h, -⟩
    · rw [h]
    · rw [h]
      exact (List.sublist_cons_self dropped rest).subperm.trans (shift_perm hshift).symm.subperm
  · have h := serve_logs (W := W) (T := T) c drain id
    exact Or.inl ⟨h.1, h.2.1⟩
  · exact Or.inl ⟨List.nil_subperm, rfl⟩

/-- A move posts one message, to the worker it is for or from the queue, or none. -/
theorem Move.posted_cases (h : Move W T A c c') :
    c'.posted = c.posted ∨
      ∃ p, c'.posted = c.posted ++ [p] ∧ (DirectOk p ∧ A.post p ∨
        ∃ item ∈ c.queue, p.origin = item.origin ∧ item.live p.now p.aborted = true) := by
  rcases h.logs with h | ⟨p, key, busy, hp, rfl⟩ | ⟨item, -, rfl⟩ | rfl | ⟨drain, id, rfl⟩ | rfl
  · exact Or.inl h.posted
  · obtain ⟨ws, bs, bt, h⟩ := recordPost_eq c p key busy
    rw [h]
    exact Or.inr ⟨p, rfl, Or.inl hp⟩
  · exact Or.inl rfl
  · exact Or.inl (leftOut_evict c).1
  · rcases (serve_logs (W := W) (T := T) c drain id).2.2 with h | ⟨p, item, hmem, horigin, hlive, h⟩
    · exact Or.inl h
    · exact Or.inr ⟨p, h, Or.inr ⟨item, hmem, horigin, hlive⟩⟩
  · exact Or.inl rfl

theorem Move.bounded (h : Move W T A c c') (hb : Bounded c) : Bounded c' := by
  rcases h.queue_cases with ⟨hqueue, -⟩ | ⟨item, hitem, hqueue, -⟩
  · exact hb.of_le h.config hqueue.length_le
  · intro cap hcap
    rw [show c'.maxQueueLength = c'.toConfig.maxQueueLength from rfl, h.config] at hcap
    rw [hqueue, List.length_append]
    exact hitem.room cap hcap

theorem Moves.bounded (h : Moves W T A c c') (hb : Bounded c) : Bounded c' := by
  induction h with
  | refl => exact hb
  | tail _ hstep ih => exact hstep.bounded ih

theorem Moves.queueOk (h : Moves W T A c c') (hc : QueueOk c) : QueueOk c' := by
  refine ⟨h.bounded hc.bounded, ?_⟩
  induction h with
  | refl => exact hc.kept
  | tail _ hstep ih =>
    intro item hitem
    rcases hstep.queue_cases with ⟨hqueue, henqueued⟩ | ⟨item', -, hqueue, henqueued⟩
    · exact henqueued ▸ ih item (hqueue.subset hitem)
    · rw [hqueue] at hitem
      rw [henqueued]
      rcases List.mem_append.mp hitem with hitem | hitem
      · exact List.mem_append_left _ (ih item hitem)
      · exact List.mem_append_right _ hitem

end

end PerformanceHelpers.PowerPool
