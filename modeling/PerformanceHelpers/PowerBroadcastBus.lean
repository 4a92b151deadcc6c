import PerformanceHelpers.EntryMap
import PerformanceHelpers.Number
import PerformanceHelpers.Run

/- `createBroadcastBus` (`src/helpers/powerBroadcastBus.js`).

   A frame is not looked at, and of a message only the acknowledgement matters that was decoded of
   it, if one was. `postMessage` may throw, and calls nothing of the bus back; `onSlowConsumer` is
   called when all is done, so what it calls is a later step. The timers are those of the host;
   which messages were sent, and how each was settled, is kept beside the state.

   What is proved:
     1. `Tracked.step` — every step keeps the count of each receiver at its pending messages, and
        one armed timer for each of them.
     2. `settles_once` — so in every run no receiver is kept without a pending message, every
        message that was sent is pending or was settled once, and what is pending is settled when
        its timer fires, at the latest. -/
namespace PerformanceHelpers.PowerBroadcastBus

structure PendingAck where
  seq : ℕ
  receiverId : String
  /-- The handle. -/
  timer : ℕ
  deriving DecidableEq

/-- A timer of the host, with what its callback closes on. -/
structure Timer where
  id : ℕ
  seq : ℕ
  receiverId : String
  deriving DecidableEq

inductive Fate where
  | acked
  | timedOut
  | closed
  | disposed
  deriving DecidableEq

structure Bus where
  pending : List (ℕ × PendingAck)
  slowConsumers : List String
  receiverPendingCount : List (String × ℕ)
  nextSeq : ℕ
  closed : Bool
  /-- The armed timers, and how many were armed. -/
  timers : List Timer
  issued : ℕ
  /-- The receivers `onSlowConsumer` was called with. -/
  reports : List String
  /-- The messages that were sent, and those that are settled. -/
  sent : List ℕ
  settled : List (ℕ × Fate)
  deriving DecidableEq

/-- What `send` throws: an error of its own, or what `postMessage` throws. -/
inductive Thrown where
  | typeError (message : String)
  | postMessage
  deriving DecidableEq

/-- An acknowledgement: its `seq` is a number, its `receiverId` may be anything. -/
structure Ack where
  seq : Number
  receiverId : Option String
  deriving DecidableEq

def new : Bus where
  pending := []
  slowConsumers := []
  receiverPendingCount := []
  nextSeq := 1
  closed := false
  timers := []
  issued := 0
  reports := []
  sent := []
  settled := []

namespace Bus

/-- The messages that leave are settled. -/
def settle (b : Bus) (gone : ℕ × PendingAck → Bool) (fate : Fate) : Bus :=
  { b with
    pending := b.pending.filter fun e => !gone e
    settled := b.settled ++ (b.pending.filter gone).map fun e => (e.1, fate) }

/-- `clearTimeout`, of the messages that leave. -/
def clearTimeouts (b : Bus) (gone : ℕ × PendingAck → Bool) : Bus :=
  { b with timers := b.timers.filter fun t => !b.pending.any fun e => gone e && decide (e.2.timer = t.id) }

/-- One pending message less: a count of 0 is not kept. -/
def release (b : Bus) (receiverId : String) : Bus :=
  let count := EntryMap.count receiverId b.receiverPendingCount - 1
  { b with
    receiverPendingCount :=
      if count = 0 then EntryMap.delete receiverId b.receiverPendingCount
      else EntryMap.set receiverId count b.receiverPendingCount }

/-- `slowConsumers.delete`. -/
def caughtUp (b : Bus) (receiverId : Option String) : Bus :=
  { b with slowConsumers := b.slowConsumers.filter fun r => decide (some r ≠ receiverId) }

/-- `send`: the `id` of the subscriber is a string or not, and the frame is posted or not. -/
def send (b : Bus) (id : Option String) (posts : Bool) : Bus × Except Thrown Bool :=
  if b.closed = true then (b, .ok false)
  else
    match id with
    | none => (b, .error (.typeError "createBroadcastBus: `sub.id` must be a string."))
    | some receiverId =>
      let seq := b.nextSeq
      let b := { b with nextSeq := b.nextSeq + 1 }
      if posts = false then (b, .error .postMessage)
      else
        ({ b with
            timers := b.timers ++ [⟨b.issued, seq, receiverId⟩]
            issued := b.issued + 1
            pending := EntryMap.set seq ⟨seq, receiverId, b.issued⟩ b.pending
            receiverPendingCount := EntryMap.add receiverId 1 b.receiverPendingCount
            sent := b.sent ++ [seq] }, .ok true)

def lookup (b : Bus) (seq : Number) : Option (ℕ × PendingAck) :=
  b.pending.find? fun e => decide (Number.finite (e.1 : ℚ) = seq)

def handleMessage (b : Bus) (ack : Option Ack) : Bus :=
  if b.closed = true then b
  else
    match ack with
    | none => b
    | some ack =>
      match b.lookup ack.seq with
      | some e =>
        if some e.2.receiverId = ack.receiverId then
          (((b.clearTimeouts fun e' => decide (e'.1 = e.1)).settle (fun e' => decide (e'.1 = e.1)) .acked).release
            e.2.receiverId).caughtUp (some e.2.receiverId)
        else b.caughtUp ack.receiverId
      | none => b.caughtUp ack.receiverId

def onTimeout (b : Bus) (t : Timer) : Bus :=
  let b := (b.settle (fun e => decide (e.1 = t.seq)) .timedOut).release t.receiverId
  if b.slowConsumers.contains t.receiverId then b
  else { b with slowConsumers := b.slowConsumers ++ [t.receiverId], reports := b.reports ++ [t.receiverId] }

def close (b : Bus) (id : Option String) : Bus :=
  if b.closed = true then b
  else
    match id with
    | none => b
    | some receiverId =>
      let b := (b.clearTimeouts fun e => decide (e.2.receiverId = receiverId)).settle
        (fun e => decide (e.2.receiverId = receiverId)) .closed
      { b with receiverPendingCount := EntryMap.delete receiverId b.receiverPendingCount }.caughtUp (some receiverId)

def dispose (b : Bus) : Bus :=
  if b.closed = true then b
  else
    { (({ b with closed := true }.clearTimeouts fun _ => true).settle (fun _ => true) .disposed) with
      receiverPendingCount := [], slowConsumers := [] }

end Bus

/-- A call, a message that comes in, or a timer that fires. -/
inductive Event where
  | send (id : Option String) (posts : Bool)
  | message (ack : Option Ack)
  | timeout (timer : ℕ)
  | close (id : Option String)
  | dispose

namespace Bus

def step (b : Bus) : Event → Bus
  | .send id posts => (b.send id posts).1
  | .message ack => b.handleMessage ack
  | .timeout timer =>
    match b.timers.find? fun t => decide (t.id = timer) with
    | some t => { b with timers := b.timers.filter fun t' => decide (t'.id ≠ timer) }.onTimeout t
    | none => b
  | .close id => b.close id
  | .dispose => b.dispose

def awaiting (b : Bus) (receiverId : String) : ℕ := b.pending.countP fun e => decide (e.2.receiverId = receiverId)

/-- The counts are those of the pending messages, and none is kept at 0; what was sent is pending or
was settled, each once; and what is pending has a timer, which settles it. -/
structure SettlesOnce (b : Bus) : Prop where
  counts : ∀ r, EntryMap.get r b.receiverPendingCount = if b.awaiting r = 0 then none else some (b.awaiting r)
  once : (b.settled.map Prod.fst ++ b.pending.map Prod.fst).Perm b.sent
  distinct : b.sent.Nodup
  armed : b.timers.map Timer.seq = b.pending.map Prod.fst
  due : ∀ t ∈ b.timers, (t.seq, Fate.timedOut) ∈ (b.step (.timeout t.id)).settled

/-! ## What every step keeps -/

def timerOf (e : ℕ × PendingAck) : Timer := ⟨e.2.timer, e.1, e.2.receiverId⟩

structure Tracked (b : Bus) : Prop where
  counts : EntryMap.Tallies b.receiverPendingCount b.awaiting
  once : (b.settled.map Prod.fst ++ b.pending.map Prod.fst).Perm b.sent
  distinct : b.sent.Nodup
  old : ∀ seq ∈ b.sent, seq < b.nextSeq
  armed : b.timers = b.pending.map timerOf
  handles : (b.pending.map fun e => e.2.timer).Nodup
  issued : ∀ e ∈ b.pending, e.2.timer < b.issued

variable {b : Bus}

section
variable (h : Tracked b)
include h

theorem Tracked.nodup : (b.pending.map Prod.fst).Nodup :=
  (List.nodup_append.mp (h.once.nodup_iff.mpr h.distinct)).2.1

theorem Tracked.seq_lt {e : ℕ × PendingAck} (he : e ∈ b.pending) : e.1 < b.nextSeq :=
  h.old _ (h.once.subset (List.mem_append_right _ (List.mem_map_of_mem he)))

section
variable (gone : ℕ × PendingAck → Bool)

/-- Clearing the timers of some messages leaves those of the others. -/
theorem Tracked.clearTimeouts :
    (b.clearTimeouts gone).timers = (b.pending.filter fun e => !gone e).map timerOf := by
  show b.timers.filter _ = _
  rw [h.armed, List.filter_map]
  congr 1
  apply List.filter_congr
  intro e he
  rw [Function.comp_apply]
  congr 1
  rw [Bool.eq_iff_iff, List.any_eq_true]
  constructor
  · rintro ⟨e', he', hgone⟩
    rw [Bool.and_eq_true, decide_eq_true_eq] at hgone
    obtain rfl : e' = e := List.inj_on_of_nodup_map h.handles he' he hgone.2
    exact hgone.1
  · exact fun hgone => ⟨e, he, by rw [hgone]; simp [timerOf]⟩

/-- What is left when some messages are settled. -/
theorem Tracked.settle (fate : Fate) :
    ((b.settle gone fate).settled.map Prod.fst ++ (b.settle gone fate).pending.map Prod.fst).Perm b.sent := by
  show ((b.settled ++ (b.pending.filter gone).map fun e => (e.1, fate)).map Prod.fst ++
    (b.pending.filter fun e => !gone e).map Prod.fst).Perm b.sent
  rw [List.map_append, List.map_map, List.append_assoc]
  refine List.Perm.trans ?_ h.once
  apply List.Perm.append_left
  show ((b.pending.filter gone).map Prod.fst ++ _).Perm _
  rw [← List.map_append]
  exact (List.filter_append_perm gone b.pending).map Prod.fst

/-- Some messages leave, and the counts are those of the others. -/
theorem Tracked.leave {b' : Bus} (fate : Fate)
    (hpending : b'.pending = (b.settle gone fate).pending) (hsettled : b'.settled = (b.settle gone fate).settled)
    (hsent : b'.sent = b.sent) (hnextSeq : b'.nextSeq = b.nextSeq)
    (htimers : b'.timers = (b.pending.filter fun e => !gone e).map timerOf) (hissued : b'.issued = b.issued)
    (hcounts : EntryMap.Tallies b'.receiverPendingCount b'.awaiting) : Tracked b' := by
  have hsub : (b.settle gone fate).pending.Sublist b.pending := List.filter_sublist
  refine ⟨hcounts, ?_, ?_, ?_, ?_, ?_, ?_⟩
  · rw [hpending, hsettled, hsent]
    exact h.settle gone fate
  · rw [hsent]
    exact h.distinct
  · rw [hsent, hnextSeq]
    exact h.old
  · rw [htimers, hpending]
    rfl
  · rw [hpending]
    exact h.handles.sublist (hsub.map _)
  · rw [hpending, hissued]
    exact fun e he => h.issued e (hsub.subset he)

end

theorem Tracked.release_counts {e : ℕ × PendingAck} (he : e ∈ b.pending) {b' : Bus}
    (hcount : b'.receiverPendingCount = (b.release e.2.receiverId).receiverPendingCount)
    (hpending : b'.pending = b.pending.filter fun e' => !decide (e'.1 = e.1)) :
    EntryMap.Tallies b'.receiverPendingCount b'.awaiting := by
  have hperm : b.pending.Perm (e :: b'.pending) := hpending ▸ EntryMap.perm_delete h.nodup he
  have hawaiting : ∀ r, b.awaiting r = b'.awaiting r + if e.2.receiverId = r then 1 else 0 := by
    intro r
    unfold awaiting
    rw [hperm.countP_eq, List.countP_cons]
    simp only [decide_eq_true_eq]
  have hown := hawaiting e.2.receiverId
  rw [if_pos rfl] at hown
  have hsame : EntryMap.count e.2.receiverId b.receiverPendingCount - 1 = b'.awaiting e.2.receiverId := by
    rw [h.counts.count, hown, Nat.add_sub_cancel]
  rw [hcount]
  unfold release
  dsimp only
  rw [hsame]
  have hothers : ∀ r, r ≠ e.2.receiverId → b.awaiting r = b'.awaiting r := by
    intro r hr
    rw [hawaiting, if_neg fun heq => hr heq.symm, Nat.add_zero]
  split
  · next hnone =>
    refine (h.counts.delete _).congr fun r => ?_
    split
    · next hr => rw [hr, hnone]
    · next hr => exact hothers r hr
  · next hsome =>
    refine (h.counts.set (Nat.pos_of_ne_zero hsome) _).congr fun r => ?_
    split
    · next hr => rw [hr]
    · next hr => exact hothers r hr

theorem Tracked.send (id : Option String) (posts : Bool) : Tracked (b.send id posts).1 := by
  unfold Bus.send
  split
  · exact h
  cases id with
  | none => exact h
  | some receiverId =>
    dsimp only
    split
    · exact ⟨h.counts, h.once, h.distinct, fun seq hseq => Nat.lt_succ_of_lt (h.old seq hseq), h.armed, h.handles,
        h.issued⟩
    have hnew : b.nextSeq ∉ b.pending.map Prod.fst := by
      intro hmem
      obtain ⟨e, he, hseq⟩ := List.mem_map.mp hmem
      have hlt := h.seq_lt he
      omega
    have hset := EntryMap.set_new (v := (⟨b.nextSeq, receiverId, b.issued⟩ : PendingAck)) hnew
    refine ⟨?_, ?_, ?_, ?_, ?_, ?_, ?_⟩
    · refine (h.counts.add one_pos receiverId).congr fun r => ?_
      unfold awaiting
      dsimp only
      rw [hset, List.countP_append, List.countP_singleton]
      congr 1
      by_cases hr : r = receiverId
      · rw [if_pos hr, if_pos (decide_eq_true hr.symm)]
      · rw [if_neg hr, if_neg (by simpa using fun heq => hr heq.symm)]
    · dsimp only
      rw [hset, List.map_append, ← List.append_assoc]
      exact h.once.append_right _
    · dsimp only
      rw [List.nodup_append]
      refine ⟨h.distinct, List.nodup_singleton _, ?_⟩
      intro seq hseq seq' hseq' heq
      have hlt := h.old seq hseq
      rw [List.mem_singleton] at hseq'
      omega
    · intro seq hseq
      dsimp only at hseq ⊢
      rcases List.mem_append.mp hseq with hseq | hseq
      · exact Nat.lt_succ_of_lt (h.old seq hseq)
      · rw [List.mem_singleton] at hseq
        omega
    · dsimp only
      rw [hset, List.map_append, h.armed]
      rfl
    · dsimp only
      rw [hset, List.map_append, List.nodup_append]
      refine ⟨h.handles, List.nodup_singleton _, ?_⟩
      intro timer htimer timer' htimer' heq
      obtain ⟨e, he, rfl⟩ := List.mem_map.mp htimer
      have hlt := h.issued e he
      rw [List.map_singleton, List.mem_singleton] at htimer'
      dsimp only at htimer'
      omega
    · intro e he
      dsimp only at he ⊢
      rw [hset] at he
      rcases List.mem_append.mp he with he | he
      · exact Nat.lt_succ_of_lt (h.issued e he)
      · rw [List.mem_singleton] at he
        rw [he]
        exact Nat.lt_succ_self _

theorem Tracked.caughtUp (receiverId : Option String) : Tracked (b.caughtUp receiverId) :=
  { h with }

theorem Tracked.handleMessage (ack : Option Ack) : Tracked (b.handleMessage ack) := by
  unfold Bus.handleMessage
  split
  · exact h
  cases ack with
  | none => exact h
  | some ack =>
    dsimp only
    cases hfound : b.lookup ack.seq with
    | none => exact h.caughtUp _
    | some e =>
      dsimp only
      split
      · have he : e ∈ b.pending := List.mem_of_find?_eq_some hfound
        apply Tracked.caughtUp
        exact h.leave (fun e' => decide (e'.1 = e.1)) .acked rfl rfl rfl rfl (h.clearTimeouts _) rfl
          (h.release_counts he rfl rfl)
      · exact h.caughtUp _

theorem Tracked.fired {e : ℕ × PendingAck} (he : e ∈ b.pending) :
    (b.timers.filter fun t => decide (t.id ≠ e.2.timer)) =
      (b.pending.filter fun e' => !decide (e'.1 = e.1)).map timerOf := by
  rw [h.armed, List.filter_map]
  congr 1
  apply List.filter_congr
  intro e' he'
  rw [Function.comp_apply, ← decide_not, decide_eq_decide]
  show e'.2.timer ≠ e.2.timer ↔ ¬e'.1 = e.1
  apply not_congr
  constructor
  · intro htimer
    rw [List.inj_on_of_nodup_map h.handles he' he htimer]
  · intro hseq
    rw [List.inj_on_of_nodup_map h.nodup he' he hseq]

theorem Tracked.find {timer : ℕ} {t : Timer}
    (ht : b.timers.find? (fun t => decide (t.id = timer)) = some t) :
    ∃ e ∈ b.pending, timerOf e = t ∧ e.2.timer = timer := by
  have hmem := List.mem_of_find?_eq_some ht
  have hid := List.find?_some ht
  rw [h.armed] at hmem
  obtain ⟨e, he, rfl⟩ := List.mem_map.mp hmem
  exact ⟨e, he, rfl, of_decide_eq_true hid⟩

end

theorem step_timeout {timer : ℕ} {t : Timer} (ht : b.timers.find? (fun t => decide (t.id = timer)) = some t) :
    b.step (.timeout timer) = { b with timers := b.timers.filter fun t' => decide (t'.id ≠ timer) }.onTimeout t := by
  unfold step
  dsimp only
  rw [ht]

theorem Tracked.timeout (h : Tracked b) (timer : ℕ) : Tracked (b.step (.timeout timer)) := by
  cases ht : b.timers.find? fun t => decide (t.id = timer) with
  | none =>
    unfold step
    dsimp only
    rw [ht]
    exact h
  | some t =>
    rw [step_timeout ht]
    obtain ⟨e, he, rfl, rfl⟩ := h.find ht
    unfold onTimeout
    dsimp only
    split
    · exact h.leave (fun e' => decide (e'.1 = e.1)) .timedOut rfl rfl rfl rfl (h.fired he) rfl
        (h.release_counts he rfl rfl)
    · exact h.leave (fun e' => decide (e'.1 = e.1)) .timedOut rfl rfl rfl rfl (h.fired he) rfl
        (h.release_counts he rfl rfl)

theorem Tracked.close (h : Tracked b) (id : Option String) : Tracked (b.close id) := by
  unfold Bus.close
  split
  · exact h
  cases id with
  | none => exact h
  | some receiverId =>
    apply Tracked.caughtUp
    refine h.leave (fun e => decide (e.2.receiverId = receiverId)) .closed rfl rfl rfl rfl
      (h.clearTimeouts fun e => decide (e.2.receiverId = receiverId)) rfl ?_
    refine (h.counts.delete receiverId).congr fun r => ?_
    show _ = (b.pending.filter fun e => !decide (e.2.receiverId = receiverId)).countP _
    rw [List.countP_filter]
    split
    · next hr =>
      symm
      rw [List.countP_eq_zero]
      intro e _
      simp [hr]
    · next hr =>
      apply List.countP_congr
      intro e _
      by_cases heq : e.2.receiverId = r
      · simp [heq, hr]
      · simp [heq]

theorem Tracked.dispose (h : Tracked b) : Tracked b.dispose := by
  unfold Bus.dispose
  split
  · exact h
  · have hnone : (b.settle (fun _ => true) .disposed).pending = [] := by
      show b.pending.filter (fun _ => false) = []
      simp
    refine h.leave (fun _ => true) .disposed rfl rfl rfl rfl (h.clearTimeouts fun _ => true) rfl ?_
    refine EntryMap.Tallies.nil.congr fun r => ?_
    show 0 = List.countP _ (b.settle (fun _ => true) .disposed).pending
    rw [hnone]
    rfl

theorem Tracked.step (h : Tracked b) (e : Event) : Tracked (b.step e) := by
  cases e with
  | send id posts => exact h.send id posts
  | message ack => exact h.handleMessage ack
  | timeout timer => exact h.timeout timer
  | close id => exact h.close id
  | dispose => exact h.dispose

theorem Tracked.new : Tracked PowerBroadcastBus.new :=
  ⟨EntryMap.Tallies.nil, List.Perm.nil, List.nodup_nil, fun _ h => absurd h List.not_mem_nil, rfl, List.nodup_nil,
    fun _ h => absurd h List.not_mem_nil⟩

theorem Tracked.due (h : Tracked b) {t : Timer} (ht : t ∈ b.timers) :
    (t.seq, Fate.timedOut) ∈ (b.step (.timeout t.id)).settled := by
  have hmem := ht
  rw [h.armed] at hmem
  obtain ⟨e, he, rfl⟩ := List.mem_map.mp hmem
  obtain ⟨t', ht'⟩ : ∃ t', b.timers.find? (fun t => decide (t.id = e.2.timer)) = some t' := by
    rw [← Option.isSome_iff_exists, List.find?_isSome]
    exact ⟨_, ht, decide_eq_true rfl⟩
  obtain ⟨e', he', rfl, htimer⟩ := h.find ht'
  obtain rfl : e' = e := List.inj_on_of_nodup_map h.handles he' he htimer
  have hsettled : (e'.1, Fate.timedOut) ∈ (b.settle (fun e => decide (e.1 = e'.1)) .timedOut).settled := by
    apply List.mem_append_right
    apply List.mem_map.mpr
    exact ⟨e', List.mem_filter.mpr ⟨he, decide_eq_true rfl⟩, rfl⟩
  show _ ∈ (b.step (.timeout e'.2.timer)).settled
  rw [step_timeout ht']
  unfold onTimeout
  dsimp only
  split
  · exact hsettled
  · exact hsettled

theorem Tracked.settlesOnce (h : Tracked b) : SettlesOnce b := by
  refine ⟨h.counts.get, h.once, h.distinct, ?_, fun t ht => h.due ht⟩
  rw [h.armed, List.map_map]
  rfl

end Bus

/-- In every run of sends, acknowledgements, timeouts, closes and a disposal, in any order, the count
of a receiver is that of the pending messages that await it, and is not kept at 0; and every message
that was sent is pending or was settled, once. -/
theorem settles_once (events : List Event) : Always Bus.step Bus.SettlesOnce new events :=
  (always_of_step (fun _ e h => h.step e) Bus.Tracked.new events).mono fun _ h => h.settlesOnce

end PerformanceHelpers.PowerBroadcastBus
