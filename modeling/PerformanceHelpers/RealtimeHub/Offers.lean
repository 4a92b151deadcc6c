import PerformanceHelpers.RealtimeHub.Steps

/- The calls of `_enqueue` that `publish` and `subscribe` make, and what they leave of a hub.

   `offers` lists the calls an event makes, each with whether its subscriber has been detached
   by then: `publish` looks before each call, the replay of the retained messages does not.
   `Keeps` is what no call changes: who sent how many bytes, and which topic a subscriber has;
   buckets and retained logs only lose entries. -/
namespace PerformanceHelpers.RealtimeHub

section
variable {J : Type}

/-- A call of `_enqueue`, and whether its subscriber has been detached by then. -/
structure Offer where
  sub : ℕ
  detached : Bool
  deriving DecidableEq

def withSub (h : Hub J) (topic : String) (o : SubOptions) (nextSubId : ℕ) : Hub J :=
  { h.setSub h.nextSub
      ⟨o.id.getD s!"sub-{nextSubId}", topic, ⌊o.maxQueue⌋.toNat, o.slowConsumer,
        ⌊o.maxBatch⌋.toNat, o.priority, [], 0, 0, 0, false, 0, 0, [], []⟩ with
    nextSub := h.nextSub + 1
    subscribers := h.subscribers ++ [h.nextSub]
    topics := Function.update h.topics topic (h.topics topic ++ [h.nextSub]) }

/-- The calls of the loop of `subscribe`. -/
def replayOffers (i : ℕ) (topic : String) : List (Message J) → Hub J → List Offer
  | [], _ => []
  | m :: log, h =>
    if (h.retained topic).isEmpty then replayOffers i topic log h
    else ⟨i, (h.subs i).closed⟩ :: replayOffers i topic log (enqueue h i m 0).1

/-- The calls of the loop of `publish`. -/
def publishOffers (m : Message J) (p : ℚ) : List ℕ → Hub J → List Offer
  | [], _ => []
  | i :: bucket, h =>
    if (h.subs i).closed then publishOffers m p bucket h
    else ⟨i, false⟩ :: publishOffers m p bucket (enqueue h i m p).1

/-- `publish` comes to its loop. -/
def publishes (h : Hub J) (priority : Option ℚ) (admitted : Bool) : Bool :=
  outside h && !h.closed && !(priority.isSome && !h.messagePriority) && !(h.rateLimit && !admitted)

/-- `subscribe` adds a subscriber. -/
def subscribes (h : Hub J) (topic : String) (o : SubOptions) (nextSubId : ℕ) : Bool :=
  outside h && (subscribe h topic o nextSubId).toOption.isSome

/-- The calls of `_enqueue` an event makes. -/
def offers (h : Hub J) : Event J → List Offer
  | .subscribe topic o n =>
    if subscribes h topic o n then
      replayOffers h.nextSub topic (h.retained topic) (withSub h topic o n)
    else []
  | .publish topic m r p a =>
    if publishes h p a then
      publishOffers m (p.getD 0) (h.topics topic) (recordPublish h topic m r)
    else []
  | _ => []

/-! ## What no call changes -/

/-- Bytes and topics are as they were, and buckets and retained logs have lost entries only. -/
structure Keeps (h h' : Hub J) : Prop where
  nextSub : h'.nextSub = h.nextSub
  bytesOut : h'.counters.bytesOut = h.counters.bytesOut
  bytesSent : ∀ i, (h'.subs i).bytesSent = (h.subs i).bytesSent
  topic : ∀ i, (h'.subs i).topic = (h.subs i).topic
  topics : ∀ t, (h'.topics t).Sublist (h.topics t)
  retained : ∀ t, (h'.retained t).Sublist (h.retained t)

theorem Keeps.refl (h : Hub J) : Keeps h h :=
  ⟨rfl, rfl, fun _ => rfl, fun _ => rfl, fun _ => .refl _, fun _ => .refl _⟩

theorem Keeps.trans {h h₁ h' : Hub J} (h₀ : Keeps h h₁) (hk : Keeps h₁ h') : Keeps h h' where
  nextSub := hk.nextSub.trans h₀.nextSub
  bytesOut := hk.bytesOut.trans h₀.bytesOut
  bytesSent := fun i => (hk.bytesSent i).trans (h₀.bytesSent i)
  topic := fun i => (hk.topic i).trans (h₀.topic i)
  topics := fun t => (hk.topics t).trans (h₀.topics t)
  retained := fun t => (hk.retained t).trans (h₀.retained t)

/-- A subscriber object changes in what is not kept. -/
theorem setSub_keeps {h : Hub J} {i : ℕ} {s : Sub J} (hbytes : s.bytesSent = (h.subs i).bytesSent)
    (htopic : s.topic = (h.subs i).topic) : Keeps h (h.setSub i s) := by
  refine ⟨rfl, rfl, fun j => ?_, fun j => ?_, fun _ => .refl _, fun _ => .refl _⟩
  · rw [setSub_sub]
    split_ifs with hji
    · rw [hji]
      exact hbytes
    · rfl
  · rw [setSub_sub]
    split_ifs with hji
    · rw [hji]
      exact htopic
    · rfl

theorem Keeps.counted {h h' : Hub J} (hk : Keeps h h') {c : Counters}
    (hc : c.bytesOut = h.counters.bytesOut) : Keeps h { h' with counters := c } :=
  ⟨hk.nextSub, hc, hk.bytesSent, hk.topic, hk.topics, hk.retained⟩

theorem countDropped_keeps (h : Hub J) (i n : ℕ) : Keeps h (countDropped h i n) := by
  have hset : Keeps h (h.setSub i { h.subs i with dropped := (h.subs i).dropped + n }) :=
    setSub_keeps rfl rfl
  exact hset.counted rfl

theorem detach_keeps (h : Hub J) (i : ℕ) : Keeps h (detach h i) := by
  simp only [detach]
  split
  · exact Keeps.refl h
  · have hset : Keeps h (h.setSub i { h.subs i with closed := true }) := setSub_keeps rfl rfl
    refine ⟨rfl, rfl, hset.bytesSent, hset.topic, fun t => ?_, fun t => ?_⟩
    · show (Function.update h.topics _ _ t).Sublist _
      by_cases ht : t = (h.subs i).topic
      · subst ht
        rw [Function.update_self]
        exact List.erase_sublist
      · rw [Function.update_of_ne ht]
    · dsimp only
      split
      · by_cases ht : t = (h.subs i).topic
        · subst ht
          rw [Function.update_self]
          exact List.nil_sublist _
        · rw [Function.update_of_ne ht]
      · exact .refl _

theorem refuse_keeps (h : Hub J) (i : ℕ) : Keeps h (refuse h i) := by
  unfold refuse
  dsimp only
  split
  · exact countDropped_keeps h i 1
  · exact countDropped_keeps h i 1
  · refine Keeps.trans ?_ (detach_keeps _ i)
    exact (countDropped_keeps h i 1).counted rfl

theorem dropQueued_keeps (h : Hub J) (i : ℕ) : Keeps h (dropQueued h i) := by
  have hset : Keeps h (h.setSub i { h.subs i with
      queue := dropOldest h.messagePriority (h.subs i).queue }) := setSub_keeps rfl rfl
  exact hset.trans (countDropped_keeps _ i 1)

theorem makeRoom_keeps (i : ℕ) : ∀ (turns : ℕ) (h : Hub J), Keeps h (makeRoom i turns h).1 := by
  intro turns
  induction turns with
  | zero =>
    intro h
    rw [makeRoom]
    split_ifs
    · exact Keeps.refl h
    · exact refuse_keeps h i
  | succ turns ih =>
    intro h
    rw [makeRoom]
    split_ifs
    · exact Keeps.refl h
    · exact (dropQueued_keeps h i).trans (ih _)
    · exact refuse_keeps h i

theorem enqueue_keeps (h : Hub J) (i : ℕ) (m : Message J) (p : ℚ) : Keeps h (enqueue h i m p).1 := by
  have hroom := makeRoom_keeps i (h.subs i).queue.length h
  unfold enqueue
  dsimp only
  split
  · exact hroom.trans (setSub_keeps rfl rfl)
  · exact hroom

theorem replay_keeps (h : Hub J) (i : ℕ) (topic : String) (log : List (Message J)) :
    Keeps h (replay h i topic log) := by
  apply foldl_rel Keeps.refl Keeps.trans
  intro b m
  split
  · exact Keeps.refl b
  · exact enqueue_keeps b i m 0

theorem offer_keeps (m : Message J) (p : ℚ) (acc : Hub J × ℕ) (i : ℕ) :
    Keeps acc.1 (offer m p acc i).1 := by
  unfold offer
  split
  · exact Keeps.refl _
  · exact enqueue_keeps acc.1 i m p

theorem foldl_detach_keeps (l : List ℕ) (h : Hub J) : Keeps h (l.foldl detach h) :=
  foldl_rel Keeps.refl Keeps.trans detach_keeps l h

/-! ## One call -/

def Sub.tally (s : Sub J) : ℕ := s.handed.length + s.dropped + s.queue.length

theorem length_pushQueue (b : Bool) (q : List (Queued J)) (x : Queued J) :
    (pushQueue b q x).length = q.length + 1 := by
  have hinsert : ∀ q : List (Queued J), (insertQueued q x).length = q.length + 1 := by
    intro q
    induction q with
    | nil => rfl
    | cons y q ih =>
      rw [insertQueued]
      split
      · rfl
      · rw [List.length_cons, ih, List.length_cons]
  unfold pushQueue
  split
  · exact hinsert q
  · exact List.length_append

theorem length_dropOldest (b : Bool) (q : List (Queued J)) : (dropOldest b q).length = q.length - 1 := by
  cases b
  · exact List.length_tail
  · exact List.length_dropLast

theorem detach_own (h : Hub J) (i : ℕ) : (detach h i).subs i = { h.subs i with closed := true } := by
  simp only [detach]
  split
  · next hc =>
    rw [← hc]
  · simp [Hub.setSub]

theorem refuse_own (h : Hub J) (i : ℕ) : ∃ closed,
    (refuse h i).subs i = { h.subs i with dropped := (h.subs i).dropped + 1, closed } := by
  unfold refuse
  dsimp only
  split
  · exact ⟨(h.subs i).closed, by simp [countDropped, Hub.setSub]⟩
  · exact ⟨(h.subs i).closed, by simp [countDropped, Hub.setSub]⟩
  · refine ⟨true, ?_⟩
    rw [detach_own]
    simp [countDropped, Hub.setSub]

theorem dropQueued_own (h : Hub J) (i : ℕ) : (dropQueued h i).subs i =
    { h.subs i with
      queue := dropOldest h.messagePriority (h.subs i).queue, dropped := (h.subs i).dropped + 1 } := by
  simp [dropQueued, countDropped, Hub.setSub]

/-- Making room takes from the queue what it counts, and counts a message that is refused. -/
theorem makeRoom_own (i : ℕ) : ∀ (turns : ℕ) (h : Hub J), turns ≤ (h.subs i).queue.length →
    ((makeRoom i turns h).1.subs i).accepted = (h.subs i).accepted ∧
    ((makeRoom i turns h).1.subs i).tally =
      (h.subs i).tally + if (makeRoom i turns h).2 then 0 else 1 := by
  have hrefuse : ∀ h : Hub J, ((refuse h i).subs i).accepted = (h.subs i).accepted ∧
      ((refuse h i).subs i).tally = (h.subs i).tally + 1 := by
    intro h
    obtain ⟨closed, hown⟩ := refuse_own h i
    rw [hown]
    refine ⟨rfl, ?_⟩
    simp only [Sub.tally]
    omega
  intro turns
  induction turns with
  | zero =>
    intro h _
    rw [makeRoom]
    by_cases hroom : (h.subs i).queue.length < (h.subs i).maxQueue
    · rw [if_pos hroom]
      exact ⟨rfl, rfl⟩
    · rw [if_neg hroom]
      exact hrefuse h
  | succ turns ih =>
    intro h hlen
    rw [makeRoom]
    by_cases hroom : (h.subs i).queue.length < (h.subs i).maxQueue
    · rw [if_pos hroom]
      exact ⟨rfl, rfl⟩
    by_cases hdrop : (h.subs i).slowConsumer = .dropOldest
    · rw [if_neg hroom, if_pos hdrop]
      have hlen' : turns ≤ ((dropQueued h i).subs i).queue.length := by
        rw [dropQueued_own]
        show turns ≤ (dropOldest _ _).length
        rw [length_dropOldest]
        omega
      obtain ⟨haccepted, htally⟩ := ih (dropQueued h i) hlen'
      have hdropped : ((dropQueued h i).subs i).tally = (h.subs i).tally := by
        rw [dropQueued_own]
        simp only [Sub.tally, length_dropOldest]
        omega
      rw [hdropped] at htally
      refine ⟨haccepted.trans ?_, htally⟩
      rw [dropQueued_own]
    · rw [if_neg hroom, if_neg hdrop]
      exact hrefuse h

/-- A message that is offered is one more for its subscriber, and the last that was accepted if
it was. -/
theorem enqueue_own (h : Hub J) (i : ℕ) (m : Message J) (p : ℚ) :
    ((enqueue h i m p).1.subs i).accepted =
      (h.subs i).accepted ++ (if (enqueue h i m p).2 then [⟨m, p⟩] else []) ∧
    ((enqueue h i m p).1.subs i).tally = (h.subs i).tally + 1 := by
  obtain ⟨haccepted, htally⟩ := makeRoom_own i (h.subs i).queue.length h le_rfl
  unfold enqueue
  generalize makeRoom i (h.subs i).queue.length h = r at haccepted htally
  obtain ⟨h₁, room⟩ := r
  cases room with
  | false => exact ⟨haccepted.trans (List.append_nil _).symm, htally⟩
  | true =>
    simp only [if_true, Hub.setSub, Function.update_self]
    refine ⟨congrArg (· ++ [_]) haccepted, ?_⟩
    have htally : (h₁.subs i).tally = (h.subs i).tally := htally
    rw [← htally]
    simp only [Sub.tally, length_pushQueue]
    omega

theorem enqueue_others (h : Hub J) (i : ℕ) (m : Message J) (p : ℚ) {j : ℕ} (hj : j ≠ i) :
    (enqueue h i m p).1.subs j = h.subs j := (enqueue_spec h i m p).2.1 j hj

/-! ## The loops -/

/-- Each subscriber of `publish`'s loop is offered the message as often as is listed. -/
theorem offer_tally (m : Message J) (p : ℚ) : ∀ (bucket : List ℕ) (h : Hub J) (n i : ℕ),
    ((bucket.foldl (offer m p) (h, n)).1.subs i).tally =
      (h.subs i).tally + (publishOffers m p bucket h).countP (·.sub == i) := by
  intro bucket
  induction bucket with
  | nil => exact fun h n i => rfl
  | cons k bucket ih =>
    intro h n i
    rw [List.foldl_cons]
    by_cases hc : (h.subs k).closed = true
    · have hoffer : offer m p (h, n) k = (h, n) := if_pos hc
      rw [hoffer, ih, publishOffers, if_pos hc]
    · have hoffer : (offer m p (h, n) k).1 = (enqueue h k m p).1 := by
        unfold offer
        rw [if_neg hc]
      rw [show offer m p (h, n) k = ((enqueue h k m p).1, (offer m p (h, n) k).2) from
        Prod.ext hoffer rfl, ih, publishOffers, if_neg hc, List.countP_cons]
      by_cases hik : i = k
      · subst hik
        rw [(enqueue_own h i m p).2]
        simp only [beq_self_eq_true, if_true]
        omega
      · have hki : (k == i) = false := by simpa using Ne.symm hik
        rw [enqueue_others h k m p hik, hki]
        simp

/-- A subscriber of a bucket without repetition is offered the message once. -/
theorem offer_accepted (m : Message J) (p : ℚ) : ∀ (bucket : List ℕ) (h : Hub J) (n i : ℕ),
    bucket.Nodup → ((bucket.foldl (offer m p) (h, n)).1.subs i).accepted = (h.subs i).accepted ∨
      i ∈ bucket ∧ ((bucket.foldl (offer m p) (h, n)).1.subs i).accepted =
        (h.subs i).accepted ++ [⟨m, p⟩] := by
  intro bucket
  induction bucket with
  | nil => exact fun h n i _ => Or.inl rfl
  | cons k bucket ih =>
    intro h n i hn
    obtain ⟨hk, hn⟩ := List.nodup_cons.mp hn
    rw [List.foldl_cons]
    have hrest := ih (offer m p (h, n) k).1 (offer m p (h, n) k).2 i hn
    by_cases hik : i = k
    · -- the others of the bucket come after it
      subst hik
      have hlast := hrest.resolve_right fun h => hk h.1
      rw [hlast]
      unfold offer
      split
      · exact Or.inl rfl
      · have hown := (enqueue_own h i m p).1
        cases hr : (enqueue h i m p).2 with
        | false =>
          rw [hr] at hown
          exact Or.inl (hown.trans (List.append_nil _))
        | true =>
          rw [hr] at hown
          exact Or.inr ⟨List.mem_cons_self, hown⟩
    · have hsame : (offer m p (h, n) k).1.subs i = h.subs i := by
        unfold offer
        split
        · rfl
        · exact enqueue_others h k m p hik
      rw [hsame] at hrest
      exact hrest.imp_right fun h => ⟨List.mem_cons_of_mem _ h.1, h.2⟩

theorem replayOffers_sub (i : ℕ) (topic : String) : ∀ (log : List (Message J)) (h : Hub J),
    ∀ o ∈ replayOffers i topic log h, o.sub = i := by
  intro log
  induction log with
  | nil => exact fun h o ho => nomatch ho
  | cons m log ih =>
    intro h o ho
    unfold replayOffers at ho
    split at ho
    · exact ih h o ho
    · rcases List.mem_cons.mp ho with rfl | ho
      · rfl
      · exact ih _ o ho

theorem replay_own (i : ℕ) (topic : String) : ∀ (log : List (Message J)) (h : Hub J),
    ((replay h i topic log).subs i).tally =
      (h.subs i).tally + (replayOffers i topic log h).length ∧
    ∃ l, l.Sublist log ∧ ((replay h i topic log).subs i).accepted.map (·.message) =
      (h.subs i).accepted.map (·.message) ++ l := by
  intro log
  induction log with
  | nil => exact fun h => ⟨rfl, [], .refl _, (List.append_nil _).symm⟩
  | cons m log ih =>
    intro h
    unfold replay replayOffers
    rw [List.foldl_cons]
    split
    · obtain ⟨htally, l, hl, haccepted⟩ := ih h
      exact ⟨htally, l, hl.cons m, haccepted⟩
    · obtain ⟨htally, l, hl, haccepted⟩ := ih (enqueue h i m 0).1
      obtain ⟨hown, hone⟩ := enqueue_own h i m 0
      refine ⟨?_, ?_⟩
      · rw [hone] at htally
        rw [List.length_cons]
        exact htally.trans (by omega)
      · rw [hown, List.map_append] at haccepted
        cases hr : (enqueue h i m 0).2 with
        | false =>
          rw [hr, if_neg Bool.false_ne_true, List.map_nil, List.append_nil] at haccepted
          exact ⟨l, hl.cons m, haccepted⟩
        | true =>
          rw [hr, if_pos rfl, List.append_assoc] at haccepted
          exact ⟨m :: l, hl.cons_cons m, haccepted⟩

/-! ## The other events -/

/-- No message is offered: subscribers have what they had, and at most one frame that a
transport takes is counted, for it and for the hub. -/
structure Rests (h h' : Hub J) : Prop where
  nextSub : h'.nextSub = h.nextSub
  own : ∀ i, (h'.subs i).tally = (h.subs i).tally ∧ (h'.subs i).accepted = (h.subs i).accepted ∧
    (h'.subs i).topic = (h.subs i).topic
  topics : ∀ t, (h'.topics t).Sublist (h.topics t)
  retained : ∀ t, (h'.retained t).Sublist (h.retained t)
  bytes : ∃ k n, (n = 0 ∨ 0 < sending h k) ∧ h'.counters.bytesOut = h.counters.bytesOut + n ∧
    ∀ i, (h'.subs i).bytesSent = (h.subs i).bytesSent + if i = k then n else 0

theorem Rests.of_same {h h' : Hub J} (hsubs : h'.subs = h.subs) (hnext : h'.nextSub = h.nextSub)
    (hmaps : h'.topics = h.topics ∧ h'.retained = h.retained)
    (hbytes : h'.counters.bytesOut = h.counters.bytesOut) : Rests h h' := by
  refine ⟨hnext, fun i => ?_, fun t => ?_, fun t => ?_, 0, 0, Or.inl rfl, hbytes, fun i => ?_⟩
  · rw [hsubs]
    exact ⟨rfl, rfl, rfl⟩
  · rw [hmaps.1]
  · rw [hmaps.2]
  · rw [hsubs]
    split <;> rfl

theorem Rests.refl (h : Hub J) : Rests h h := .of_same rfl rfl ⟨rfl, rfl⟩ rfl

/-- One subscriber object changes, and the stack and the counters. -/
theorem Rests.of_setSub {h h' : Hub J} {k : ℕ} {s : Sub J} (n : ℕ)
    (hsubs : h'.subs = (h.setSub k s).subs) (hnext : h'.nextSub = h.nextSub)
    (hmaps : h'.topics = h.topics ∧ h'.retained = h.retained)
    (hown : s.tally = (h.subs k).tally ∧ s.accepted = (h.subs k).accepted ∧
      s.topic = (h.subs k).topic)
    (hsending : n = 0 ∨ 0 < sending h k)
    (hbytes : h'.counters.bytesOut = h.counters.bytesOut + n ∧
      s.bytesSent = (h.subs k).bytesSent + n) : Rests h h' := by
  refine ⟨hnext, fun i => ?_, fun t => ?_, fun t => ?_, k, n, hsending, hbytes.1, fun i => ?_⟩
  · rw [hsubs, setSub_sub]
    split_ifs with hi
    · rw [hi]
      exact hown
    · exact ⟨rfl, rfl, rfl⟩
  · rw [hmaps.1]
  · rw [hmaps.2]
  · rw [hsubs, setSub_sub]
    split_ifs with hi
    · rw [hi]
      exact hbytes.2
    · rfl

theorem detach_rests (h : Hub J) (i : ℕ) : Rests h (detach h i) := by
  have hkeeps := detach_keeps h i
  refine ⟨hkeeps.nextSub, fun j => ?_, hkeeps.topics, hkeeps.retained, 0, 0, Or.inl rfl,
    hkeeps.bytesOut, fun j => ?_⟩
  · by_cases hj : j = i
    · subst hj
      rw [detach_own]
      exact ⟨rfl, rfl, rfl⟩
    · rw [(detach_trims h i).others j hj]
      exact ⟨rfl, rfl, rfl⟩
  · rw [hkeeps.bytesSent]
    split <;> rfl

/-- What detaching keeps of one subscriber. -/
theorem foldl_detach_own (l : List ℕ) (i : ℕ) : ∀ h : Hub J,
    ((l.foldl detach h).subs i).tally = (h.subs i).tally ∧
    ((l.foldl detach h).subs i).accepted = (h.subs i).accepted ∧
    ((l.foldl detach h).subs i).topic = (h.subs i).topic := by
  induction l with
  | nil => exact fun h => ⟨rfl, rfl, rfl⟩
  | cons k l ih =>
    intro h
    obtain ⟨h1, h2, h3⟩ := ih (detach h k)
    obtain ⟨h1', h2', h3'⟩ := (detach_rests h k).own i
    exact ⟨h1.trans h1', h2.trans h2', h3.trans h3'⟩

theorem close_rests (h : Hub J) : Rests h (close h) := by
  unfold close
  split
  · exact Rests.refl h
  · have hkeeps := foldl_detach_keeps h.subscribers { h with closed := true, flushTimer := false }
    refine ⟨hkeeps.nextSub, fun i => ?_, fun t => List.nil_sublist _, fun t => List.nil_sublist _,
      0, 0, Or.inl rfl, hkeeps.bytesOut, fun i => ?_⟩
    · exact foldl_detach_own h.subscribers i { h with closed := true, flushTimer := false }
    · refine (hkeeps.bytesSent i).trans ?_
      split <;> rfl

variable [DecidableEq J] (T : JsonText (List J))

theorem flushSubscriber_bytesOut (h : Hub J) (i : ℕ) :
    (flushSubscriber T h i).counters.bytesOut = h.counters.bytesOut := by
  simp only [flushSubscriber]
  split
  · rfl
  · cases encodeBatch T h.objects h.frames (nextBatch h i) <;> rfl

/-- A flush hands over the batch it splices, or counts it. -/
theorem flushSubscriber_rests (h : Hub J) (i : ℕ) : Rests h (flushSubscriber T h i) := by
  have hbytes := flushSubscriber_bytesOut T h i
  have hlength : (nextBatch h i).length = (h.subs i).queue.length -
      ((h.subs i).queue.drop (h.subs i).maxBatch).length := by
    rw [nextBatch, List.length_map, List.length_take, List.length_drop]
    omega
  have hle : ((h.subs i).queue.drop (h.subs i).maxBatch).length ≤ (h.subs i).queue.length := by
    rw [List.length_drop]
    omega
  rcases flushSubscriber_cases T h i with ⟨-, heq⟩ | ⟨-, -, c, heq⟩ | ⟨-, -, c, f, n, heq⟩
  · rw [heq]
    exact Rests.refl h
  · rw [heq] at hbytes ⊢
    refine .of_setSub 0 rfl rfl ⟨rfl, rfl⟩ ⟨?_, rfl, rfl⟩ (Or.inl rfl) ⟨hbytes, rfl⟩
    simp only [Sub.tally]
    omega
  · rw [heq] at hbytes ⊢
    refine .of_setSub 0 rfl rfl ⟨rfl, rfl⟩ ⟨?_, rfl, rfl⟩ (Or.inl rfl) ⟨hbytes, rfl⟩
    simp only [Sub.tally, List.length_append, List.length_take, List.length_drop]
    omega

/-- A flush after what touches no subscriber object. -/
theorem Rests.flush {h₀ h : Hub J} (hr : Rests h₀ h) (hsubs : h.subs = h₀.subs)
    (hbytes : h.counters.bytesOut = h₀.counters.bytesOut) (i : ℕ) :
    Rests h₀ (flushSubscriber T h i) := by
  have hf := flushSubscriber_rests T h i
  have hk := flushSubscriber_bytesOut T h i
  refine ⟨hf.nextSub.trans hr.nextSub, fun j => ?_, fun t => (hf.topics t).trans (hr.topics t),
    fun t => (hf.retained t).trans (hr.retained t), 0, 0, Or.inl rfl, hk.trans hbytes, fun j => ?_⟩
  · obtain ⟨h1, h2, h3⟩ := hf.own j
    rw [hsubs] at h1 h2 h3
    exact ⟨h1, h2, h3⟩
  · obtain ⟨k, n, -, hout, hsent⟩ := hf.bytes
    have hn : n = 0 := by omega
    subst hn
    rw [hsent j, hsubs]
    split <;> split <;> rfl

/-- The event calls `subscribe` or `publish`. -/
def Event.Offers : Event J → Prop
  | .subscribe _ _ _ | .publish _ _ _ _ _ => True
  | _ => False

theorem step_rests (h : Hub J) (e : Event J) (he : ¬ e.Offers) : Rests h (step T h e) := by
  have hrefl := Rests.refl h
  by_cases hcont : e.Continues
  · obtain ⟨stack, waiting, heq, -⟩ := prepared_continues T h hcont
    have hprep : Rests h { h with stack, waiting } := .of_same rfl rfl ⟨rfl, rfl⟩ rfl
    rw [step_eq, heq]
    cases flushed h e with
    | none => exact hprep
    | some i => exact hprep.flush T rfl rfl i
  cases e with
  | turn | handled | resume k => exact absurd trivial hcont
  | subscribe topic o n | publish topic m r p a => exact absurd trivial he
  | unsubscribe id =>
    show Rests h (if outside h then _ else h)
    split
    · unfold unsubscribe
      split
      · exact hrefl
      · exact detach_rests h _
    · exact hrefl
  | mutate ref value | flush =>
    show Rests h (if outside h then _ else h)
    split
    · exact .of_same rfl rfl ⟨rfl, rfl⟩ rfl
    · exact hrefl
  | close =>
    show Rests h (if outside h then _ else h)
    split
    · exact close_rests h
    · exact hrefl
  | timer | microtask =>
    show Rests h (if _ then drain _ else h)
    split
    · exact .of_same rfl rfl ⟨rfl, rfl⟩ rfl
    · exact hrefl
  | sendReturned =>
    simp only [step]
    split
    · next i bytes stack hs =>
      have hsending : 0 < sending h i := by
        rw [sending, hs, countP_send, if_pos rfl]
        omega
      exact .of_setSub bytes rfl rfl ⟨rfl, rfl⟩ ⟨rfl, rfl, rfl⟩ (Or.inr hsending) ⟨rfl, rfl⟩
    · exact hrefl
  | sendThrew =>
    simp only [step]
    split
    · exact .of_setSub 0 rfl rfl ⟨rfl, rfl⟩ ⟨rfl, rfl, rfl⟩ (Or.inl rfl) ⟨rfl, rfl⟩
    · exact hrefl
  | settled i =>
    show Rests h (if h.stack.isEmpty then settled h i else h)
    split
    · simp only [settled]
      split
      · exact hrefl
      · exact .of_setSub 0 rfl rfl ⟨rfl, rfl⟩ ⟨rfl, rfl, rfl⟩ (Or.inl rfl) ⟨rfl, rfl⟩
    · exact hrefl
  | chain i =>
    show Rests h (if _ then _ else h)
    split
    · exact .of_setSub 0 rfl rfl ⟨rfl, rfl⟩ ⟨rfl, rfl, rfl⟩ (Or.inl rfl) ⟨rfl, rfl⟩
    · exact hrefl

/-! ## `publish` and `subscribe` -/

omit [DecidableEq J]

/-- `subscribe` refuses, or adds a subscriber and replays the retained messages to it. -/
theorem subscribe_eq {h h' : Hub J} {topic : String} {o : SubOptions} {n : ℕ}
    (hs : subscribe h topic o n = .ok h') :
    h.retained topic = [] ∧ h' = withSub h topic o n ∨
      h' = scheduleFlush (replay (withSub h topic o n) h.nextSub topic (h.retained topic)) := by
  unfold subscribe at hs
  split_ifs at hs
  simp only at hs
  split_ifs at hs with hdup hempty <;> cases hs
  · exact Or.inl ⟨by simpa [Hub.setSub] using hempty, rfl⟩
  · exact Or.inr rfl

/-- `publish` comes to nothing, or to its loop. -/
theorem publish_eq {h : Hub J} {topic : String} {m : Message J} {r : Bool} {p : Option ℚ} {a : Bool}
    {x : Hub J × ℕ} (hp : publish h topic m r p a = .ok x) (hout : outside h = true) :
    h.closed = true ∧ x.1 = h ∨
    h.closed = false ∧ (p.isSome && !h.messagePriority) = false ∧
      ((publishes h p a = false ∨ h.topics topic = []) ∧
          (∃ c : Counters, c.bytesOut = h.counters.bytesOut ∧
            x.1 = { recordPublish h topic m r with counters := c }) ∨
        publishes h p a = true ∧
          (x.1 = ((h.topics topic).foldl (offer m (p.getD 0)) (recordPublish h topic m r, 0)).1 ∨
            x.1 = scheduleFlush
              ((h.topics topic).foldl (offer m (p.getD 0)) (recordPublish h topic m r, 0)).1)) := by
  have hrecord : (recordPublish h topic m r).topics = h.topics ∧
      (recordPublish h topic m r).rateLimit = h.rateLimit ∧
      (recordPublish h topic m r).counters.bytesOut = h.counters.bytesOut := by
    unfold recordPublish
    cases r <;> exact ⟨rfl, rfl, rfl⟩
  unfold publish at hp
  split_ifs at hp with hclosed hprio
  · cases hp
    exact Or.inl ⟨hclosed, rfl⟩
  have hclosed : h.closed = false := Bool.eq_false_iff.mpr hclosed
  have hprio : (p.isSome && !h.messagePriority) = false := Bool.eq_false_iff.mpr hprio
  have hpublishes : publishes h p a = !(h.rateLimit && !a) := by
    rw [publishes, hout, hclosed, hprio]
    simp
  refine Or.inr ⟨hclosed, hprio, ?_⟩
  rw [← hrecord.1]
  simp only at hp
  split_ifs at hp with hbucket hlimit hqueued <;> cases hp
  · exact Or.inl ⟨Or.inr (by simpa using hbucket), _, hrecord.2.2, rfl⟩
  · rw [hrecord.2.1] at hlimit
    refine Or.inl ⟨Or.inl (by rw [hpublishes, hlimit]; rfl), _, ?_, rfl⟩
    exact hrecord.2.2
  · rw [hrecord.2.1] at hlimit
    exact Or.inr ⟨by rw [hpublishes, Bool.eq_false_iff.mpr hlimit]; rfl, Or.inr rfl⟩
  · rw [hrecord.2.1] at hlimit
    exact Or.inr ⟨by rw [hpublishes, Bool.eq_false_iff.mpr hlimit]; rfl, Or.inl rfl⟩

end

end PerformanceHelpers.RealtimeHub
