import PerformanceHelpers.RealtimeHub.Steps

/- One send at a time, in order.

   `_drain` and `_drainSubscriberFully` look at `inFlight` before they flush; the
   end of a send's chain does not. Its decrement and its flush are two promise
   jobs, and a sweep or a `flush()` in between may already have started the next
   send.

   What is proved:
     1. `handed_in_order` — what is handed to `send` for a subscriber, and then its
        queue, is what `_enqueue` took, in order: of all messages on a FIFO queue,
        of those of one priority under `messagePriority`.
     2. `one_in_flight_iff` — at most one send is in flight per subscriber, exactly
        when no chain ends with a flush while another send is in flight
        (`overtakes_and_overlaps` has two in flight). -/
namespace PerformanceHelpers.RealtimeHub

section
variable {J : Type}

/-! ## The order of a queue -/

abbrev ByPriority (q : List (Queued J)) : Prop := q.Pairwise fun a b => b.priority ≤ a.priority

theorem mem_insertQueued {q : List (Queued J)} {x y : Queued J} :
    y ∈ insertQueued q x ↔ y = x ∨ y ∈ q := by
  induction q with
  | nil => simp [insertQueued]
  | cons z q ih =>
    rw [insertQueued]
    split
    · simp
    · simp only [List.mem_cons, ih]
      tauto

theorem ByPriority.insert {q : List (Queued J)} (h : ByPriority q) (x : Queued J) :
    ByPriority (insertQueued q x) := by
  induction q with
  | nil => exact List.pairwise_singleton _ _
  | cons z q ih =>
    obtain ⟨hz, hq⟩ := List.pairwise_cons.mp h
    rw [insertQueued]
    split
    · rename_i hlt
      refine List.pairwise_cons.mpr ⟨fun y hy => ?_, h⟩
      rcases List.mem_cons.mp hy with rfl | hy
      · exact hlt.le
      · exact (hz y hy).trans hlt.le
    · rename_i hge
      refine List.pairwise_cons.mpr ⟨fun y hy => ?_, ih hq⟩
      rcases mem_insertQueued.mp hy with rfl | hy
      · exact not_lt.mp hge
      · exact hz y hy

/-- Among its equals a message is inserted last. -/
theorem filter_insertQueued {q : List (Queued J)} (h : ByPriority q) (x : Queued J) (p : ℚ) :
    (insertQueued q x).filter (·.priority = p) =
      q.filter (·.priority = p) ++ [x].filter (·.priority = p) := by
  induction q with
  | nil => rfl
  | cons z q ih =>
    obtain ⟨hz, hq⟩ := List.pairwise_cons.mp h
    rw [insertQueued]
    split
    · rename_i hlt
      by_cases hx : x.priority = p
      · -- everything behind the insertion point has a lower priority
        have hnone : (z :: q).filter (·.priority = p) = [] := by
          apply List.filter_eq_nil_iff.mpr
          intro y hy
          have hle : y.priority ≤ z.priority := by
            rcases List.mem_cons.mp hy with rfl | hy
            · exact le_rfl
            · exact hz y hy
          simpa using (hle.trans_lt (hx ▸ hlt)).ne
        simp [hx, hnone]
      · simp [hx]
    · rw [List.filter_cons, List.filter_cons, ih hq]
      split <;> simp

theorem dropOldest_sublist (b : Bool) (q : List (Queued J)) : (dropOldest b q).Sublist q := by
  cases b
  · exact List.tail_sublist q
  · exact List.dropLast_sublist q

/-- What a subscriber was handed, and then its queue, is in the order `_enqueue`
took it. -/
structure Sub.InOrder (byPriority : Bool) (s : Sub J) : Prop where
  fifo : byPriority = false → (s.handed ++ s.queue).Sublist s.accepted
  equals : ∀ p, ((s.handed ++ s.queue).filter (·.priority = p)).Sublist
    (s.accepted.filter (·.priority = p))
  sorted : byPriority = true → ByPriority s.queue

/-- Losing messages keeps the order. -/
theorem Sub.InOrder.lose {b : Bool} {s s' : Sub J} (h : s.InOrder b)
    (hq : s'.queue.Sublist s.queue) (ha : s'.accepted = s.accepted) (hh : s'.handed = s.handed) :
    s'.InOrder b where
  fifo := by
    intro hb
    rw [ha, hh]
    exact ((List.Sublist.refl s.handed).append hq).trans (h.fifo hb)
  equals := by
    intro p
    rw [ha, hh]
    exact (((List.Sublist.refl s.handed).append hq).filter _).trans (h.equals p)
  sorted := fun hb => (h.sorted hb).sublist hq

theorem Sub.InOrder.change {b : Bool} {s s' : Sub J} (h : s.InOrder b)
    (hc : Sub.Change b s s') : s'.InOrder b := by
  cases hc with
  | tend ht =>
    cases ht with
    | push x =>
      cases b with
      | false =>
        refine ⟨fun _ => ?_, fun p => ?_, fun hb => nomatch hb⟩
        · show (s.handed ++ (s.queue ++ [x])).Sublist (s.accepted ++ [x])
          rw [← List.append_assoc]
          exact (h.fifo rfl).append_right [x]
        · show ((s.handed ++ (s.queue ++ [x])).filter _).Sublist ((s.accepted ++ [x]).filter _)
          rw [← List.append_assoc, List.filter_append (s.handed ++ s.queue),
            List.filter_append s.accepted]
          exact (h.equals p).append_right _
      | true =>
        have hsorted := h.sorted rfl
        refine ⟨fun hb => (nomatch hb), fun p => ?_, fun _ => hsorted.insert x⟩
        have hleft : (s.handed ++ insertQueued s.queue x).filter (·.priority = p) =
            (s.handed ++ s.queue).filter (·.priority = p) ++ [x].filter (·.priority = p) := by
          rw [List.filter_append, filter_insertQueued hsorted, ← List.append_assoc,
            ← List.filter_append]
        show ((s.handed ++ insertQueued s.queue x).filter _).Sublist
          ((s.accepted ++ [x]).filter _)
        rw [hleft, List.filter_append s.accepted]
        exact (h.equals p).append_right _
    | dropQueued => exact h.lose (dropOldest_sublist b s.queue) rfl rfl
    | refuse | close => exact h.lose (List.Sublist.refl _) rfl rfl
  | create => exact ⟨fun _ => .refl _, fun _ => .refl _, fun _ => List.Pairwise.nil⟩
  | send =>
    have hsplit : s.handed ++ s.queue.take s.maxBatch ++ s.queue.drop s.maxBatch =
        s.handed ++ s.queue := by rw [List.append_assoc, List.take_append_drop]
    refine ⟨fun hb => ?_, fun p => ?_, fun hb => ?_⟩
    · show (s.handed ++ s.queue.take s.maxBatch ++ s.queue.drop s.maxBatch).Sublist _
      rw [hsplit]
      exact h.fifo hb
    · show ((s.handed ++ s.queue.take s.maxBatch ++ s.queue.drop s.maxBatch).filter _).Sublist _
      rw [hsplit]
      exact h.equals p
    · exact (h.sorted hb).sublist (List.drop_sublist _ _)
  | lose n => exact h.lose (List.drop_sublist _ _) rfl rfl
  | returned bytes | threw | settled | handled => exact h.lose (List.Sublist.refl _) rfl rfl

/-- The messages handed to `send` for `i`, batch after batch. -/
def sentTo (h : Hub J) (i : ℕ) : List (Message J) :=
  (h.frames.sends.filter (·.sub = i)).flatMap (·.batch)

variable [DecidableEq J] (T : JsonText (List J))

/-- The calls of `send` hand over what is logged as handed. -/
theorem sentTo_step {h : Hub J} (hv : Valid h) (e : Event J)
    (hsent : ∀ i, sentTo h i = (h.subs i).handed.map (·.message)) (i : ℕ) :
    sentTo (step T h e) i = ((step T h e).subs i).handed.map (·.message) := by
  have hr := prepared_readies T hv e
  have hprep : ∀ j, sentTo (prepared T h e) j = ((prepared T h e).subs j).handed.map (·.message) := by
    intro j
    rw [sentTo, hr.frames_eq, hr.handed_eq]
    exact hsent j
  rw [step_eq]
  cases flushed h e with
  | none => exact hprep i
  | some k =>
    generalize prepared T h e = h' at hr hprep
    show sentTo (flushSubscriber T h' k) i =
      ((flushSubscriber T h' k).subs i).handed.map (·.message)
    have hhanded := (flushSubscriber_flushes T hr.valid k).handed_eq i
    have hframes := flushSubscriber_frames T h' k
    rw [hhanded, List.map_append, ← hprep i, sentTo, sentTo, hframes]
    unfold emit
    by_cases hb : nextBatch h' k = []
    · rw [if_pos (by simp [hb]), if_neg fun hs => hs.2.1 hb]
      simp
    · rw [if_neg (by simpa using hb)]
      cases henc : encodeBatch T h'.objects h'.frames (nextBatch h' k) with
      | none =>
        rw [if_neg fun hs => hs.2.2 henc]
        simp
      | some x =>
        have hkeep := (encodeBatch_keeps T henc).1
        have hsends : Sends T h' k := ⟨hb, by simp [henc]⟩
        simp only [hkeep, List.filter_append, List.flatMap_append]
        by_cases hik : i = k
        · subst hik
          simp [hsends, nextBatch]
        · simp [hik, Ne.symm hik]

/-- **In order.** In every state of a run, for each subscriber, what was handed to
`send` followed by its queue is a subsequence of what `_enqueue` took: of all of it
on a FIFO queue, and of each priority's under `messagePriority`, where the queue is
by priority. -/
theorem handed_in_order {codec : Codec J} {o : Options} {objects : ℕ → Option J} {h : Hub J}
    (hnew : newWith codec o objects = .ok h) (es : List (Event J)) :
    Always (step T)
      (fun h => ∀ i, sentTo h i = (h.subs i).handed.map (·.message) ∧
        (h.subs i).InOrder o.messagePriority) h es := by
  obtain ⟨hv, -, hmp, hqueue, -, hlogs⟩ := new_valid hnew
  have horder := subs_always T (P := Sub.InOrder o.messagePriority) hv
    (fun i => by
      obtain ⟨ha, hh⟩ := hlogs i
      refine ⟨fun _ => ?_, fun p => ?_, fun _ => ?_⟩
      · simp [ha, hh, hqueue i]
      · simp [ha, hh, hqueue i]
      · rw [hqueue i]; exact List.Pairwise.nil)
    (fun s s' hc hs => hs.change (hmp ▸ hc)) es
  have hsent : Always (step T)
      (fun h => Valid h ∧ ∀ i, sentTo h i = (h.subs i).handed.map (·.message)) h es := always_of_step
    (fun s e hs => ⟨valid_step T hs.1 e, sentTo_step T hs.1 e hs.2⟩)
    ⟨hv, fun i => by
      have hframes : h.frames.sends = [] := by
        obtain ⟨n, -, hn⟩ := bind_eq_ok.mp hnew
        cases hn
        rfl
      simp [sentTo, hframes, (hlogs i).2]⟩ es
  exact (hsent.and horder).mono fun s hs i => ⟨hs.1.2 i, hs.2 i⟩

/-! ## One send at a time -/

/-- A flush that calls `send` finds nothing of its subscriber in flight. -/
def FlushesAlone (h : Hub J) (e : Event J) : Prop :=
  ∀ i ∈ flushed h e, Sends T h i → (h.subs i).inFlight ≤ 0

instance (h : Hub J) (e : Event J) : Decidable (FlushesAlone T h e) :=
  inferInstanceAs (Decidable (∀ i ∈ flushed h e, Sends T h i → (h.subs i).inFlight ≤ 0))

theorem one_in_flight_step_iff {h : Hub J} (hv : Valid h) (hone : ∀ i, sending h i ≤ 1)
    (e : Event J) : (∀ i, sending (step T h e) i ≤ 1) ↔ FlushesAlone T h e := by
  have hr := prepared_readies T hv e
  rw [step_eq]
  unfold FlushesAlone
  cases hf : flushed h e with
  | none =>
    refine iff_of_true (fun i => (hr.sending_le i).trans (hone i)) ?_
    intro i hi
    cases hi
  | some k =>
    have hmem : k ∈ flushed h e := by rw [hf]; rfl
    obtain ⟨-, -, -, hsame⟩ := prepared_same T hmem
    have hsending := (flushSubscriber_flushes T hr.valid k).sending_eq
    have hflight := hv.inFlight_eq k
    simp only [Option.elim, Option.mem_def, Option.some.injEq, forall_eq']
    constructor
    · intro hall hs
      have hk := hall k
      rw [hsending, hsame, if_pos ⟨rfl, (sends_prepared T hmem).mpr hs⟩] at hk
      omega
    · intro halone i
      rw [hsending, hsame]
      split_ifs with hs
      · obtain ⟨rfl, hs⟩ := hs
        have := halone ((sends_prepared T hmem).mp hs)
        omega
      · exact hone i

/-- **One at a time, in order.** In every state of a run what a subscriber was
handed is in the order of its queue; and at most one send is in flight for each
subscriber, in every state of the run, if and only if no chain of the run ends with
a flush while another send of its subscriber is in flight. -/
theorem one_in_flight_iff {codec : Codec J} {o : Options} {objects : ℕ → Option J} {h : Hub J}
    (hnew : newWith codec o objects = .ok h) (es : List (Event J)) :
    Always (step T)
        (fun h => ∀ i, sentTo h i = (h.subs i).handed.map (·.message) ∧
          (h.subs i).InOrder o.messagePriority) h es ∧
      (Always (step T) (fun h => ∀ i, sending h i ≤ 1) h es ↔
        Meets (step T) (FlushesAlone T) h es) := by
  obtain ⟨hv, -, -, -, hzero, -⟩ := new_valid hnew
  refine ⟨handed_in_order T hnew es, ?_⟩
  apply always_iff_meets (Q := Valid) (fun s e hs => valid_step T hs e)
    (fun s e hs hone => one_in_flight_step_iff T hs hone e) hv
  intro i
  rw [hzero i]
  exact Nat.zero_le 1

end

open MessageCodec (digitText)

/-- Two messages, one batch each: the second is flushed by the first one's chain. -/
theorem one_in_flight_chain : ∃ h, newWith .json {} (fun _ => none) = .ok h ∧
    Always (step digitText) (fun h => ∀ i, sending h i ≤ 1) h
      [.subscribe "t" { maxBatch := 1 } 1, .publish "t" (.prim 7) false none true,
        .publish "t" (.prim 8) false none true, .microtask, .turn, .sendReturned, .turn,
        .settled 0, .chain 0, .handled] :=
  ⟨_, rfl, (one_in_flight_iff digitText
    (show newWith .json {} (fun _ => none) = .ok _ from rfl) _).2.mpr (by decide +kernel)⟩

/-- Under `messagePriority` a message of higher priority leaves before one queued
earlier. And with the transport's first promise settled and two more messages queued,
a sweep sends one between the two promise jobs of the first send, and the end of its
chain sends the other. -/
theorem overtakes_and_overlaps :
    (∃ h, newWith .json { messagePriority := true } (fun _ => none) = .ok h ∧
      let h' := run (step digitText) h
        [.subscribe "t" {} 1, .publish "t" (.prim 7) false none true,
          .publish "t" (.prim 8) false (some 5) true, .microtask, .turn]
      (h'.subs 0).accepted.map (·.message) = [.prim 7, .prim 8] ∧
        sentTo h' 0 = [.prim 8, .prim 7]) ∧
    ∃ h, newWith .json {} (fun _ => none) = .ok h ∧
      let publish m : Event (Fin 10) := .publish "t" (.prim m) false none true
      let h' := run (step digitText) h
        [.subscribe "t" { maxBatch := 1 } 1, publish 1, .microtask, .turn, .sendReturned, .turn,
          publish 2, publish 3, .settled 0, .microtask, .turn, .sendReturned, .turn, .chain 0,
          .handled]
      sending h' 0 = 2 := by
  refine ⟨⟨_, rfl, ?_, ?_⟩, _, rfl, ?_⟩
  · decide +kernel
  · decide +kernel
  · decide +kernel

end PerformanceHelpers.RealtimeHub
