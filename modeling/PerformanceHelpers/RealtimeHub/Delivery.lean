import PerformanceHelpers.RealtimeHub.InFlight
import PerformanceHelpers.RealtimeHub.Offers

/- What becomes of the messages published on a `PowerRealtimeHub`, over a whole run.

   The hub counts the sends it waits for, and does not say which of them a transport settles
   next. Here the batches are kept beside it: those `send` was called with and whose promise has
   not settled, those that have been settled, and those the handler was called with. A handler is
   called with the messages of a batch one after the other; they are noted at the first.

   What is proved:
     `messages_conserved` — in every run in which the transport settles the sends of each
     subscriber in the order in which they were made, no queue is longer than it may be; on a
     FIFO hub what a transport, and what a handler, is handed is a subsequence of what was
     published to the subscriber's topic; what a subscriber was offered is what was sent, was
     dropped or is queued; and the hub's bytes are those of its subscribers. Two sends may be
     in flight at once, and the handler is called in the order in which they settle
     (`handled_out_of_order`). -/
namespace PerformanceHelpers.RealtimeHub
open Function (update update_self update_of_ne)

section
variable {J : Type}

/-- A hub and its messages. -/
structure Delivery (J : Type) where
  hub : Hub J
  published : String → List (Message J) := fun _ => []
  offered : ℕ → ℕ := fun _ => 0
  awaiting : ℕ → List (List (Message J)) := fun _ => []
  chained : ℕ → List (List (Message J)) := fun _ => []
  handled : ℕ → List (Message J) := fun _ => []

namespace Delivery

/-- A call of `publish` counts its message. -/
def announce (d : Delivery J) : Event J → String → List (Message J)
  | .publish topic m _ p _ =>
    if outside d.hub && !d.hub.closed && !(p.isSome && !d.hub.messagePriority) then
      Function.update d.published topic (d.published topic ++ [m])
    else d.published
  | _ => d.published

/-- The `k`-th of the sends to a subscriber that are waited for settles. -/
def settle (d : Delivery J) (i k : ℕ) : Delivery J :=
  match (d.awaiting i)[k]? with
  | none => d
  | some batch =>
    { d with
      awaiting := Function.update d.awaiting i ((d.awaiting i).eraseIdx k)
      chained := Function.update d.chained i (d.chained i ++ [batch]) }

def tell (d : Delivery J) (i : ℕ) : Delivery J :=
  match d.chained i with
  | [] => d
  | batch :: rest =>
    { d with
      chained := Function.update d.chained i rest
      handled := Function.update d.handled i (d.handled i ++ batch) }

/-- What an event does to the batches there are. The send that is being called is the last that
was made to its subscriber. -/
def moves (d : Delivery J) (k : ℕ) : Event J → Delivery J
  | .settled i => if d.hub.stack.isEmpty && decide (0 < (d.hub.subs i).settling) then d.settle i k else d
  | .chain i => if d.hub.stack.isEmpty && decide (0 < (d.hub.subs i).chained) then d.tell i else d
  | .sendThrew =>
    match d.hub.stack with
    | .send i _ :: _ => { d with awaiting := Function.update d.awaiting i (d.awaiting i).dropLast }
    | _ => d
  | _ => d

def ignores (d : Delivery J) (e : Event J) (k : ℕ) : Bool :=
  match e with
  | .settled i => decide ((d.awaiting i).length ≤ k)
  | _ => false

variable [DecidableEq J] (T : JsonText (List J))

/-- An event of the hub. Where a transport settles a send, the number says which. -/
def step (d : Delivery J) (e : Event J × ℕ) : Delivery J :=
  if d.ignores e.1 e.2 then d
  else
    let hub := RealtimeHub.step T d.hub e.1
    let sends := hub.frames.sends.drop d.hub.frames.sends.length
    let d' := d.moves e.2 e.1
    { d' with
      hub
      published := d.announce e.1
      offered := fun i => d.offered i + (offers d.hub e.1).countP (·.sub == i)
      awaiting := fun i => d'.awaiting i ++ (sends.filter (·.sub = i)).map (·.batch) }

omit [DecidableEq J] in
/-- The sends of a subscriber settle in the order in which they were made. -/
def SettlesInOrder (_ : Delivery J) : Event J × ℕ → Prop
  | (.settled _, k) => k = 0
  | _ => True

omit [DecidableEq J] in
/-- Queues are bounded, what is handed over is in the order in which it was published, and
messages and bytes are all accounted for. -/
structure Conserved (d : Delivery J) : Prop where
  bounded : ∀ i, (d.hub.subs i).queue.length ≤ (d.hub.subs i).maxQueue
  sent : d.hub.messagePriority = false → ∀ i < d.hub.nextSub,
    (sentTo d.hub i).Sublist (d.published (d.hub.subs i).topic)
  handled : d.hub.messagePriority = false → ∀ i < d.hub.nextSub,
    (d.handled i).Sublist (d.published (d.hub.subs i).topic)
  offered : ∀ i < d.hub.nextSub, d.offered i =
    (sentTo d.hub i).length + (d.hub.subs i).dropped + (d.hub.subs i).queue.length
  bytesOut : d.hub.counters.bytesOut = ∑ i ∈ Finset.range d.hub.nextSub, (d.hub.subs i).bytesSent

end Delivery

/-! ## What is published, offered and counted -/

/-- The books agree with the hub: buckets hold each subscriber of their topic at most once, what
is retained and what was accepted was published, and offers and bytes add up. -/
structure Booked (published : String → List (Message J)) (counts : ℕ → ℕ) (h : Hub J) : Prop where
  nodup : ∀ t, (h.topics t).Nodup
  listed : ∀ t, ∀ i ∈ h.topics t, i < h.nextSub ∧ (h.subs i).topic = t
  retained : ∀ t, (h.retained t).Sublist (published t)
  accepted : ∀ i < h.nextSub,
    ((h.subs i).accepted.map (·.message)).Sublist (published (h.subs i).topic)
  offered : ∀ i < h.nextSub, counts i = (h.subs i).tally
  fresh : ∀ i, h.nextSub ≤ i → counts i = 0
  bytesOut : h.counters.bytesOut = ∑ i ∈ Finset.range h.nextSub, (h.subs i).bytesSent

section
variable {published : String → List (Message J)} {counts : ℕ → ℕ} {h h' : Hub J}

theorem Booked.rests (hb : Booked published counts h) (hv : Valid h) (hr : Rests h h') :
    Booked published counts h' where
  nodup := fun t => (hb.nodup t).sublist (hr.topics t)
  listed := by
    intro t i hi
    rw [hr.nextSub, (hr.own i).2.2]
    exact hb.listed t i ((hr.topics t).subset hi)
  retained := fun t => (hr.retained t).trans (hb.retained t)
  accepted := by
    intro i hi
    rw [hr.nextSub] at hi
    rw [(hr.own i).2.1, (hr.own i).2.2]
    exact hb.accepted i hi
  offered := by
    intro i hi
    rw [hr.nextSub] at hi
    rw [(hr.own i).1]
    exact hb.offered i hi
  fresh := by
    intro i hi
    rw [hr.nextSub] at hi
    exact hb.fresh i hi
  bytesOut := by
    obtain ⟨k, n, hsending, hout, hsent⟩ := hr.bytes
    rw [hr.nextSub, hout, hb.bytesOut, Finset.sum_congr rfl fun i _ => hsent i,
      Finset.sum_add_distrib, Finset.sum_ite_eq' (Finset.range h.nextSub) k fun _ => n]
    congr 1
    rcases hsending with rfl | hpos
    · split <;> rfl
    · -- what is sent to has been subscribed
      have hk : k < h.nextSub := by
        by_contra hge
        have hzero := (hv.unused k (not_lt.mp hge)).2.2.1
        omega
      rw [if_pos (Finset.mem_range.mpr hk)]

/-- The books after a change of the schedule. -/
theorem Booked.schedules (hb : Booked published counts h) (hs : Schedules h h') :
    Booked published counts h' := by
  rw [hs.rest]
  exact { hb with }

theorem Booked.record (hb : Booked published counts h) (topic : String) (m : Message J) (r : Bool) :
    Booked (update published topic (published topic ++ [m])) counts
      (recordPublish h topic m r) := by
  have hgrown : ∀ t, (published t).Sublist (update published topic (published topic ++ [m]) t) := by
    intro t
    by_cases ht : t = topic
    · subst ht
      rw [update_self]
      exact List.sublist_append_left _ _
    · rw [update_of_ne ht]
  have hkept : Booked (update published topic (published topic ++ [m])) counts
      { h with counters := { h.counters with published := h.counters.published + 1 } } :=
    ⟨hb.nodup, hb.listed, fun t => (hb.retained t).trans (hgrown t),
      fun i hi => (hb.accepted i hi).trans (hgrown _), hb.offered, hb.fresh, hb.bytesOut⟩
  unfold recordPublish
  cases r with
  | false => exact hkept
  | true =>
    refine ⟨hkept.nodup, hkept.listed, fun t => ?_, hkept.accepted, hkept.offered, hkept.fresh,
      hkept.bytesOut⟩
    show (update h.retained topic _ t).Sublist _
    by_cases ht : t = topic
    · subst ht
      rw [update_self, update_self]
      exact (List.drop_sublist _ _).trans ((hb.retained t).append_right [m])
    · rw [update_of_ne ht]
      exact hkept.retained t

theorem publishOffers_sub (m : Message J) (p : ℚ) : ∀ (bucket : List ℕ) (h : Hub J),
    ∀ o ∈ publishOffers m p bucket h, o.sub ∈ bucket ∧ o.detached = false := by
  intro bucket
  induction bucket with
  | nil => exact fun h o ho => nomatch ho
  | cons k bucket ih =>
    intro h o ho
    unfold publishOffers at ho
    split at ho
    · exact ⟨List.mem_cons_of_mem _ (ih h o ho).1, (ih h o ho).2⟩
    · rcases List.mem_cons.mp ho with rfl | ho
      · exact ⟨List.mem_cons_self, rfl⟩
      · exact ⟨List.mem_cons_of_mem _ (ih _ o ho).1, (ih _ o ho).2⟩

/-- No call is for a subscriber that is not among those called. -/
theorem countP_offers {l : List Offer} {i : ℕ} (h : ∀ o ∈ l, o.sub ≠ i) :
    l.countP (·.sub == i) = 0 :=
  List.countP_eq_zero.mpr fun o ho heq => h o ho (eq_of_beq heq)

section
variable (hb : Booked published counts h)
include hb

theorem Booked.publish (topic : String) (m : Message J) (r : Bool)
    (p : ℚ) :
    Booked (update published topic (published topic ++ [m]))
      (fun i => counts i +
        (publishOffers m p (h.topics topic) (recordPublish h topic m r)).countP (·.sub == i))
      ((h.topics topic).foldl (offer m p) (recordPublish h topic m r, 0)).1 := by
  have hrec := hb.record topic m r
  have hsame : (recordPublish h topic m r).subs = h.subs ∧
      (recordPublish h topic m r).nextSub = h.nextSub := by
    unfold recordPublish
    cases r <;> exact ⟨rfl, rfl⟩
  have htally := offer_tally m p (h.topics topic) (recordPublish h topic m r) 0
  have haccepted := offer_accepted m p (h.topics topic) (recordPublish h topic m r) 0
  have hkeeps : Keeps (recordPublish h topic m r)
      ((h.topics topic).foldl (offer m p) (recordPublish h topic m r, 0)).1 :=
    foldl_rel (R := fun a b : Hub J × ℕ => Keeps a.1 b.1) (fun _ => Keeps.refl _) Keeps.trans
      (offer_keeps m p) (h.topics topic) (recordPublish h topic m r, 0)
  generalize ((h.topics topic).foldl (offer m p) (recordPublish h topic m r, 0)).1 = h' at *
  refine ⟨fun t => (hrec.nodup t).sublist (hkeeps.topics t), fun t i hi => ?_,
    fun t => (hkeeps.retained t).trans (hrec.retained t), fun i hi => ?_, fun i hi => ?_,
    fun i hi => ?_, ?_⟩
  · rw [hkeeps.nextSub, hkeeps.topic]
    exact hrec.listed t i ((hkeeps.topics t).subset hi)
  · rw [hkeeps.nextSub] at hi
    rw [hkeeps.topic]
    rcases haccepted i (hb.nodup topic) with hold | ⟨hmem, hnew⟩
    · rw [hold]
      exact hrec.accepted i hi
    · obtain ⟨hlt, htopic⟩ := hb.listed topic i hmem
      rw [hnew, hsame.1, htopic, update_self, List.map_append]
      have hold := hb.accepted i hlt
      rw [htopic] at hold
      exact hold.append_right [m]
  · rw [hkeeps.nextSub] at hi
    rw [htally, ← hrec.offered i hi]
  · rw [hkeeps.nextSub] at hi
    rw [hrec.fresh i hi, countP_offers fun o ho heq => ?_]
    have hlt := (hb.listed topic o.sub (publishOffers_sub m p _ _ o ho).1).1
    rw [hsame.2] at hi
    omega
  · rw [hkeeps.nextSub, hkeeps.bytesOut, hrec.bytesOut]
    exact Finset.sum_congr rfl fun i _ => (hkeeps.bytesSent i).symm

/-- A new subscriber was offered nothing. -/
theorem Booked.withSub (topic : String) (o : SubOptions) (n : ℕ) :
    Booked published counts (withSub h topic o n) := by
  have hnew : (RealtimeHub.withSub h topic o n).subs h.nextSub =
      ⟨o.id.getD s!"sub-{n}", topic, ⌊o.maxQueue⌋.toNat, o.slowConsumer,
        ⌊o.maxBatch⌋.toNat, o.priority, [], 0, 0, 0, false, 0, 0, [], []⟩ := by
    simp [RealtimeHub.withSub, Hub.setSub]
  have hold : ∀ i ≠ h.nextSub, (RealtimeHub.withSub h topic o n).subs i = h.subs i :=
    fun i hi => update_of_ne hi _ _
  have hcases : ∀ i < h.nextSub + 1, i = h.nextSub ∨ i < h.nextSub ∧ i ≠ h.nextSub := by
    intro i hi
    omega
  refine ⟨fun t => ?_, fun t i hi => ?_, hb.retained, fun i hi => ?_, fun i hi => ?_,
    fun i hi => hb.fresh i (Nat.le_of_succ_le hi), ?_⟩
  · show (update h.topics topic _ t).Nodup
    by_cases ht : t = topic
    · subst ht
      rw [update_self]
      refine List.Nodup.append (hb.nodup t) (List.nodup_singleton _) ?_
      rw [List.disjoint_singleton]
      exact fun hmem => absurd (hb.listed t _ hmem).1 (lt_irrefl _)
    · rw [update_of_ne ht]
      exact hb.nodup t
  · have hi : i ∈ update h.topics topic (h.topics topic ++ [h.nextSub]) t := hi
    have hlisted : i ∈ h.topics t → i < h.nextSub + 1 ∧
        ((RealtimeHub.withSub h topic o n).subs i).topic = t := by
      intro hmem
      obtain ⟨hlt, htopic⟩ := hb.listed t i hmem
      rw [hold i hlt.ne]
      exact ⟨Nat.lt_succ_of_lt hlt, htopic⟩
    by_cases ht : t = topic
    · subst ht
      rw [update_self] at hi
      rcases List.mem_append.mp hi with hmem | hmem
      · exact hlisted hmem
      · obtain rfl := List.mem_singleton.mp hmem
        rw [hnew]
        exact ⟨Nat.lt_succ_self _, rfl⟩
    · rw [update_of_ne ht] at hi
      exact hlisted hi
  · rcases hcases i hi with rfl | ⟨hlt, hne⟩
    · rw [hnew]
      exact List.nil_sublist _
    · rw [hold i hne]
      exact hb.accepted i hlt
  · rcases hcases i hi with rfl | ⟨hlt, hne⟩
    · rw [hnew, hb.fresh _ le_rfl]
      rfl
    · rw [hold i hne]
      exact hb.offered i hlt
  · show h.counters.bytesOut = ∑ i ∈ Finset.range (h.nextSub + 1), _
    rw [Finset.sum_range_succ, hnew, hb.bytesOut]
    exact Finset.sum_congr rfl fun i hi => by rw [hold i (Finset.mem_range.mp hi).ne]

/-- A new subscriber is offered the retained messages of its topic. -/
theorem Booked.subscribe (topic : String) (o : SubOptions) (n : ℕ) :
    Booked published
      (fun i => counts i + (replayOffers h.nextSub topic (h.retained topic)
        (RealtimeHub.withSub h topic o n)).countP (·.sub == i))
      (replay (RealtimeHub.withSub h topic o n) h.nextSub topic (h.retained topic)) := by
  have hnew := hb.withSub topic o n
  have hkeeps := replay_keeps (RealtimeHub.withSub h topic o n) h.nextSub topic (h.retained topic)
  have hothers := (replay_tends (RealtimeHub.withSub h topic o n) h.nextSub topic
    (h.retained topic)).others
  have hsub := replayOffers_sub h.nextSub topic (h.retained topic) (RealtimeHub.withSub h topic o n)
  obtain ⟨htally, l, hl, haccepted⟩ := replay_own h.nextSub topic (h.retained topic)
    (RealtimeHub.withSub h topic o n)
  have htopic : ((RealtimeHub.withSub h topic o n).subs h.nextSub).topic = topic ∧
      ((RealtimeHub.withSub h topic o n).subs h.nextSub).accepted = [] := by
    simp [RealtimeHub.withSub, Hub.setSub]
  generalize replay (RealtimeHub.withSub h topic o n) h.nextSub topic (h.retained topic) = h' at *
  refine ⟨fun t => (hnew.nodup t).sublist (hkeeps.topics t), fun t i hi => ?_,
    fun t => (hkeeps.retained t).trans (hnew.retained t), fun i hi => ?_, fun i hi => ?_,
    fun i hi => ?_, ?_⟩
  · rw [hkeeps.nextSub, hkeeps.topic]
    exact hnew.listed t i ((hkeeps.topics t).subset hi)
  · rw [hkeeps.nextSub] at hi
    rw [hkeeps.topic]
    by_cases hne : i = h.nextSub
    · subst hne
      rw [haccepted, htopic.1, htopic.2]
      exact hl.trans (hb.retained topic)
    · rw [hothers i hne]
      exact hnew.accepted i hi
  · rw [hkeeps.nextSub] at hi
    rw [hnew.offered i hi]
    by_cases hne : i = h.nextSub
    · subst hne
      rw [htally, List.countP_eq_length.mpr fun o ho => beq_iff_eq.mpr (hsub o ho)]
    · rw [hothers i hne, countP_offers fun o ho heq => hne (heq.symm.trans (hsub o ho)), Nat.add_zero]
  · rw [hkeeps.nextSub] at hi
    rw [hnew.fresh i hi, countP_offers fun o ho heq => ?_]
    have hi : h.nextSub + 1 ≤ i := hi
    have hsub := hsub o ho
    omega
  · rw [hkeeps.nextSub, hkeeps.bytesOut, hnew.bytesOut]
    exact Finset.sum_congr rfl fun i _ => (hkeeps.bytesSent i).symm

theorem Booked.counted {c : Counters}
    (hc : c.bytesOut = h.counters.bytesOut) : Booked published counts { h with counters := c } :=
  ⟨hb.nodup, hb.listed, hb.retained, hb.accepted, hb.offered, hb.fresh, hc.trans hb.bytesOut⟩

end

theorem publish_error {topic : String} {m : Message J} {r : Bool} {p : Option ℚ} {a : Bool}
    {e : String} (hp : RealtimeHub.publish h topic m r p a = .error e) :
    (p.isSome && !h.messagePriority) = true := by
  unfold RealtimeHub.publish at hp
  split_ifs at hp with hclosed hprio
  · exact hprio
  · simp only at hp
    split_ifs at hp

end

variable [DecidableEq J] (T : JsonText (List J))

theorem booked_step {d : Delivery J} (hv : Valid d.hub) (hb : Booked d.published d.offered d.hub)
    (e : Event J) :
    Booked (d.announce e) (fun i => d.offered i + (offers d.hub e).countP (·.sub == i))
      (step T d.hub e) := by
  -- nothing is published or offered
  have hsame : offers d.hub e = [] → d.announce e = d.published → step T d.hub e = d.hub →
      Booked (d.announce e) (fun i => d.offered i + (offers d.hub e).countP (·.sub == i))
        (step T d.hub e) := by
    intro hoffers hannounce hstep
    rw [hoffers, hannounce, hstep]
    exact hb
  by_cases he : e.Offers
  · cases e with
    | subscribe topic o n =>
      by_cases hout : outside d.hub = true
      · have hstep : step T d.hub (.subscribe topic o n) =
            (subscribe d.hub topic o n).toOption.getD d.hub := if_pos hout
        cases hs : subscribe d.hub topic o n with
        | error e =>
          have hno : subscribes d.hub topic o n = false := by simp [subscribes, hs, Except.toOption]
          exact hsame (by simp [offers, hno]) rfl (by rw [hstep, hs]; rfl)
        | ok h' =>
          have hyes : subscribes d.hub topic o n = true := by simp [subscribes, hs, hout, Except.toOption]
          have hoffers : offers d.hub (.subscribe topic o n) = replayOffers d.hub.nextSub topic
              (d.hub.retained topic) (withSub d.hub topic o n) := if_pos hyes
          rw [hstep, hs, hoffers]
          rcases subscribe_eq hs with ⟨hempty, rfl⟩ | rfl
          · rw [hempty]
            exact hb.withSub topic o n
          · exact (hb.subscribe topic o n).schedules (scheduleFlush_schedules _)
      · have hno : subscribes d.hub topic o n = false := by
          simp [subscribes, Bool.eq_false_iff.mpr hout]
        exact hsame (by simp [offers, hno]) rfl (if_neg hout)
    | publish topic m r p a =>
      by_cases hout : outside d.hub = true
      · have hstep : step T d.hub (.publish topic m r p a) =
            ((publish d.hub topic m r p a).toOption.map Prod.fst).getD d.hub := if_pos hout
        cases hp : publish d.hub topic m r p a with
        | error e =>
          have hprio := publish_error hp
          have hno : publishes d.hub p a = false := by
            rw [publishes, hprio]
            simp
          refine hsame (by simp [offers, hno]) (if_neg ?_) (by rw [hstep, hp]; rfl)
          rw [hprio]
          simp
        | ok x =>
          have hstep : step T d.hub (.publish topic m r p a) = x.1 := by rw [hstep, hp]; rfl
          rcases publish_eq hp hout with ⟨hclosed, heq⟩ | ⟨hopen, hprio, hrest⟩
          · have hno : publishes d.hub p a = false := by
              rw [publishes, hclosed]
              simp
            refine hsame (by simp [offers, hno]) (if_neg ?_) (hstep.trans heq)
            rw [hclosed]
            simp
          have hannounce : d.announce (.publish topic m r p a) =
              update d.published topic (d.published topic ++ [m]) := by
            refine if_pos ?_
            rw [hout, hopen, hprio]
            rfl
          rw [hannounce, hstep]
          rcases hrest with ⟨hno, c, hc, heq⟩ | ⟨hyes, hx⟩
          · have hoffers : offers d.hub (.publish topic m r p a) = [] := by
              rcases hno with hno | hempty
              · exact if_neg (by rw [hno]; exact Bool.false_ne_true)
              · simp [offers, hempty, publishOffers]
            rw [hoffers, heq]
            refine (hb.record topic m r).counted (hc.trans ?_)
            unfold recordPublish
            cases r <;> rfl
          · have hoffers : offers d.hub (.publish topic m r p a) =
                publishOffers m (p.getD 0) (d.hub.topics topic) (recordPublish d.hub topic m r) :=
              if_pos hyes
            have hloop := hb.publish topic m r (p.getD 0)
            rw [hoffers]
            rcases hx with hx | hx
            · rw [hx]
              exact hloop
            · rw [hx]
              exact hloop.schedules (scheduleFlush_schedules _)
      · have hno : publishes d.hub p a = false := by simp [publishes, Bool.eq_false_iff.mpr hout]
        refine hsame (by simp [offers, hno]) (if_neg ?_) (if_neg hout)
        simp [Bool.eq_false_iff.mpr hout]
    | _ => exact he.elim
  · have hrests := hb.rests hv (step_rests T d.hub e he)
    have hnone : offers d.hub e = [] ∧ d.announce e = d.published := by
      cases e with
      | subscribe topic o n | publish topic m r p a => exact absurd trivial he
      | _ => exact ⟨rfl, rfl⟩
    rw [hnone.1, hnone.2]
    exact hrests

/-! ## What is handed over -/

namespace Delivery

/-- The books agree, and what a handler was called with, with what it is going to be called with,
is in the order of the sends. -/
structure Tracked (d : Delivery J) : Prop where
  valid : Valid d.hub
  booked : Booked d.published d.offered d.hub
  sent : ∀ i, sentTo d.hub i = (d.hub.subs i).handed.map (·.message)
  inOrder : ∀ i, (d.hub.subs i).InOrder d.hub.messagePriority
  bounded : ∀ i, (d.hub.subs i).queue.length ≤ (d.hub.subs i).maxQueue
  told : ∀ i, (d.handled i ++ (d.chained i).flatten ++ (d.awaiting i).flatten).Sublist (sentTo d.hub i)

section
variable {d : Delivery J}

section
omit [DecidableEq J]

theorem moves_told (e : Event J × ℕ) (h : d.SettlesInOrder e) (i : ℕ) :
    ((d.moves e.2 e.1).handled i ++ ((d.moves e.2 e.1).chained i).flatten ++
      ((d.moves e.2 e.1).awaiting i).flatten).Sublist
    (d.handled i ++ (d.chained i).flatten ++ (d.awaiting i).flatten) := by
  obtain ⟨e, k⟩ := e
  cases e with
  | settled j =>
    simp only [moves]
    split
    · have hk : k = 0 := h
      subst hk
      unfold settle
      cases hawaiting : d.awaiting j with
      | nil => exact .refl _
      | cons batch rest =>
        simp only [List.getElem?_cons_zero]
        by_cases hij : i = j
        · subst hij
          rw [update_self, update_self, hawaiting]
          simp
        · rw [update_of_ne hij, update_of_ne hij]
    · exact .refl _
  | chain j =>
    simp only [moves]
    split
    · unfold tell
      cases hchained : d.chained j with
      | nil => exact .refl _
      | cons batch rest =>
        dsimp only
        by_cases hij : i = j
        · subst hij
          rw [update_self, update_self, hchained]
          simp
        · rw [update_of_ne hij, update_of_ne hij]
    · exact .refl _
  | sendThrew =>
    simp only [moves]
    split
    · next j _ _ _ =>
      dsimp only
      by_cases hij : i = j
      · subst hij
        rw [update_self]
        exact (List.Sublist.refl _).append (List.dropLast_sublist _).flatten
      · rw [update_of_ne hij]
    · exact .refl _
  | _ => exact .refl _

/-- A queue is bounded by what it may hold. -/
theorem bounded_change {b : Bool} {s s' : Sub J} (h : s.queue.length ≤ s.maxQueue)
    (hc : Sub.Change b s s') : s'.queue.length ≤ s'.maxQueue := by
  cases hc with
  | tend ht =>
    cases ht with
    | push x room =>
      show (pushQueue b s.queue x).length ≤ s.maxQueue
      rw [length_pushQueue]
      exact room
    | dropQueued =>
      show (dropOldest b s.queue).length ≤ s.maxQueue
      rw [length_dropOldest]
      omega
    | refuse | close => exact h
  | create => exact Nat.zero_le _
  | send | lose n => exact (List.drop_sublist _ _).length_le.trans h
  | returned bytes | threw | settled | handled => exact h

/-- What each change of a subscriber object keeps, all of them do. -/
theorem kept_of_changes {b : Bool} {P : Sub J → Prop} (hP : ∀ s s', Sub.Change b s s' → P s → P s')
    {s s' : Sub J} (h : Relation.ReflTransGen (Sub.Change b) s s') (hs : P s) : P s' := by
  induction h with
  | refl => exact hs
  | tail _ hlast ih => exact hP _ _ hlast ih

end

theorem Tracked.step (hd : d.Tracked) (e : Event J × ℕ) (h : d.SettlesInOrder e) :
    (d.step T e).Tracked := by
  unfold Delivery.step
  split
  · exact hd
  · obtain ⟨hchanges, hmode, -⟩ := step_changes T hd.valid e.1
    have hsent := sentTo_step T hd.valid e.1 hd.sent
    obtain ⟨new, hnew⟩ : ∃ new, (RealtimeHub.step T d.hub e.1).frames.sends = d.hub.frames.sends ++ new := by
      rcases step_sends T d.hub e.1 with hs | ⟨i, -, frame, hs⟩
      · exact ⟨[], hs.trans (List.append_nil _).symm⟩
      · exact ⟨_, hs⟩
    refine ⟨valid_step T hd.valid e.1, booked_step T hd.valid hd.booked e.1, hsent, fun i => ?_,
      fun i => ?_, fun i => ?_⟩
    · show Sub.InOrder (RealtimeHub.step T d.hub e.1).messagePriority _
      rw [hmode]
      exact kept_of_changes (fun s s' hc hs => Sub.InOrder.change hs hc) (hchanges i) (hd.inOrder i)
    · exact kept_of_changes (P := fun s => s.queue.length ≤ s.maxQueue)
        (fun s s' hc hs => bounded_change hs hc) (hchanges i) (hd.bounded i)
    · -- what is sent now is awaited last
      have hmoved := (moves_told e h i).trans (hd.told i)
      have hsends : sentTo (RealtimeHub.step T d.hub e.1) i =
          sentTo d.hub i ++ (new.filter (·.sub = i)).flatMap (·.batch) := by
        rw [sentTo, hnew, List.filter_append, List.flatMap_append]
        rfl
      have hdrop : (RealtimeHub.step T d.hub e.1).frames.sends.drop d.hub.frames.sends.length = new := by
        rw [hnew, List.drop_left]
      show List.Sublist (_ ++ _ ++ ((d.moves e.2 e.1).awaiting i ++ _).flatten) (sentTo _ i)
      rw [hsends, hdrop, List.flatten_append, ← List.append_assoc]
      exact hmoved.append (.refl _)

omit [DecidableEq J] in
theorem Tracked.conserved (hd : d.Tracked) : d.Conserved := by
  have hsent : d.hub.messagePriority = false → ∀ i < d.hub.nextSub,
      (sentTo d.hub i).Sublist (d.published (d.hub.subs i).topic) := by
    intro hfifo i hi
    rw [hd.sent i]
    have horder := (List.sublist_append_left _ _).trans ((hd.inOrder i).fifo hfifo)
    exact (horder.map _).trans (hd.booked.accepted i hi)
  refine ⟨hd.bounded, hsent, fun hfifo i hi => ?_, fun i hi => ?_, hd.booked.bytesOut⟩
  · have hhandled : (d.handled i).Sublist (sentTo d.hub i) :=
      ((List.sublist_append_left _ _).trans (List.sublist_append_left _ _)).trans (hd.told i)
    exact hhandled.trans (hsent hfifo i hi)
  · rw [hd.booked.offered i hi, hd.sent i, List.length_map]
    rfl

omit [DecidableEq J] in
theorem new_tracked {codec : Codec J} {o : Options} {objects : ℕ → Option J} {h : Hub J}
    (hnew : newWith codec o objects = .ok h) : ({ hub := h } : Delivery J).Tracked := by
  obtain ⟨hv, -, -, hqueue, -, hlogs⟩ := new_valid hnew
  obtain ⟨n, -, hn⟩ := bind_eq_ok.mp hnew
  cases hn
  refine ⟨hv, ⟨fun _ => List.nodup_nil, fun _ _ hi => (nomatch hi), fun _ => .refl _,
    fun i hi => absurd hi (Nat.not_lt_zero i), fun i hi => absurd hi (Nat.not_lt_zero i),
    fun _ _ => rfl, rfl⟩, fun _ => rfl, fun _ => ⟨fun _ => .refl _, fun _ => .refl _, fun _ => .nil⟩,
    fun _ => le_rfl, fun _ => .refl _⟩

end

end Delivery

end

open MessageCodec (digitText)

end PerformanceHelpers.RealtimeHub
