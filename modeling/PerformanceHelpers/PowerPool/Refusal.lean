import PerformanceHelpers.PowerPool.Events
import PerformanceHelpers.PowerPool.Idempotency
import PerformanceHelpers.PowerPool.Posting

/- `PowerPool.postMessage` with an idempotency key (`src/helpers/powerPool.js`,
   `postMessage` around `_postMessageInner`).

   The wrapper sees what the inner method answers: `false` and a throw release the
   key, anything else settles it. A request that the pool turns down is answered with
   a rejected promise.

   What is proved:
     1. `postMessageInner_outcome` — what a post answers, and whether its task is taken
        on, read off the state it finds.
     2. `freesKey_iff` — a refused post frees its key exactly when it is not a request
        that the pool turns down. -/
namespace PerformanceHelpers.PowerPool

variable {V : Type} (W : World) (T : ObjectText V)

/-- `postMessage` of a pool with a ledger. -/
def postMessage (c : Pool V) (l : Ledger) (key : Option String) (m : Message V) (tr : TransferList)
    (o : PostOptions) (detached : List ℕ) : Pool V × Ledger × Result :=
  let claim := begin l key c.now
  if claim.2 then
    let r := c.postMessageInner W T m tr o detached
    match r.2 with
    | .threw e => (r.1, release claim.1 key, .threw e)
    | .refused => (r.1, release claim.1 key, .refused)
    | answer => (r.1, settle claim.1 key c.now, answer)
  else (c, claim.1, .refused)

/-- A request of which nothing is queued or posted, and whose promise is rejected
instead: its signal has aborted or its deadline has passed, or the branch it takes does
not serve it. An empty correlation id is not taken for one there. -/
def TurnsDown (c : Pool V) (m : Message V) (o : PostOptions) : Prop :=
  c.terminated = false ∧ o.wantResponse = true ∧ ∃ deadlineAt, Pool.deadlineOf o = .ok deadlineAt ∧
    ((∃ s ∈ o.signal, s ∈ c.aborted) ∨
      m.isPlainObject = true ∧ o.correlationId ≠ some "" ∧
        ((∃ d ∈ deadlineAt, d ≤ c.now) ∨
          Unserved W (c.leastFor W o.workerId).1
            ((c.leastFor W o.workerId).1.routeOf (c.leastFor W o.workerId).2 o.workerId)))

/-! ## What a post answers -/

/-- The branches after the request is registered: a waiter under a key that is not empty
gets its promise either way, everybody else a truth value. -/
theorem postFor_outcome (c : Pool V) (least : Option Worker) (m : Message V) (tr : TransferList)
    (waiter : Waiter) (deadlineAt : Option ℚ) (o : PostOptions) (detached : List ℕ) :
    ((∃ d ∈ deadlineAt, d ≤ c.now) ∨ Unserved W c (c.routeOf least o.workerId)) ∧
        LeftOut c (c.postFor W T least m tr waiter deadlineAt o detached).1 ∧
        ((∀ key n, waiter = some (key, n) → key = "") ∧
            (c.postFor W T least m tr waiter deadlineAt o detached).2 = .refused ∨
          ∃ key n, waiter = some (key, n) ∧ key ≠ "" ∧
            (c.postFor W T least m tr waiter deadlineAt o detached).2 = .promise n) ∨
      ¬ ((∃ d ∈ deadlineAt, d ≤ c.now) ∨ Unserved W c (c.routeOf least o.workerId)) ∧
        TookOn c (c.postFor W T least m tr waiter deadlineAt o detached).1 := by
  by_cases hrefuses : Refuses W c least deadlineAt o
  · obtain ⟨c', e, hsame, h⟩ := postFor_refused W T waiter deadlineAt o detached hrefuses m tr
    rw [h]
    have hleft := leftOut_refuse c' waiter (.rejected e)
    refine Or.inl ⟨hrefuses, ⟨hleft.1.trans hsame.posted, hleft.2.trans hsame.enqueued⟩, ?_⟩
    rcases refuse_cases c' waiter (.rejected e) with ⟨hkey, h⟩ | ⟨key, n, hw, hkey, h⟩
    · exact Or.inl ⟨hkey, by rw [h]⟩
    · exact Or.inr ⟨key, n, hw, hkey, by rw [h]⟩
  · exact Or.inr ⟨hrefuses, (postFor_served W T waiter deadlineAt o detached hrefuses m tr).1⟩

/-- A request is turned down where it is not served, unless its id is empty. -/
theorem postRequest_outcome (c : Pool V) (least : Option Worker) {m : Message V} (tr : TransferList)
    (deadlineAt : Option ℚ) (o : PostOptions) (detached : List ℕ) (hplain : m.isPlainObject = true) :
    (o.correlationId ≠ some "" ∧
        ((∃ d ∈ deadlineAt, d ≤ c.now) ∨ Unserved W c (c.routeOf least o.workerId))) ∧
        LeftOut c (c.postRequest W T least m tr deadlineAt o detached).1 ∧
        (∃ n, (c.postRequest W T least m tr deadlineAt o detached).2 = .promise n) ∨
      ¬ (o.correlationId ≠ some "" ∧
          ((∃ d ∈ deadlineAt, d ≤ c.now) ∨ Unserved W c (c.routeOf least o.workerId))) ∧
        (TookOn c (c.postRequest W T least m tr deadlineAt o detached).1 ∨
          (c.postRequest W T least m tr deadlineAt o detached).2 = .refused) := by
  unfold Pool.postRequest
  dsimp only
  rw [if_pos hplain]
  have hkey := correlationIdFor_eq_empty (c := c) (o := o)
  obtain ⟨seq, hseq⟩ := correlationIdFor_eq c o
  generalize (c.correlationIdFor o).2 = key at hkey ⊢
  rw [hseq]
  generalize hreg : (({ c with correlationSequence := seq } : Pool V).register key o) = c'
  have hleft : LeftOut c c' := by
    rw [← hreg]
    exact leftOut_register { c with correlationSequence := seq } key o
  have hnow : c'.now = c.now := by
    rw [← hreg, register_eq]
  have hroute : c'.routeOf least o.workerId = c.routeOf least o.workerId := by
    rw [← hreg, routeOf_register]
    rfl
  have hun : Unserved W c' (c.routeOf least o.workerId) ↔ Unserved W c (c.routeOf least o.workerId) := by
    rw [← hreg, unserved_register]
    cases c.routeOf least o.workerId <;> exact Iff.rfl
  have hout := postFor_outcome W T c' least (Pool.withCorrelationId T m key) tr
    (some (key, c.nextPromise)) deadlineAt o detached
  rw [hroute, hun, hnow] at hout
  rcases hout with ⟨hends, hl, ⟨hempty, hr⟩ | ⟨key', n, hw, hne, hr⟩⟩ | ⟨hends, htook⟩
  · have hid := hkey.mp (hempty key c.nextPromise rfl)
    exact Or.inr ⟨fun h => h.1 hid, Or.inr hr⟩
  · cases hw
    exact Or.inl ⟨⟨fun hid => hne (hkey.mpr hid), hends⟩,
      ⟨hl.1.trans hleft.1, hl.2.trans hleft.2⟩, c.nextPromise, hr⟩
  · exact Or.inr ⟨fun h => hends h.2, Or.inl (hleft.trans_tookOn htook)⟩

/-- What a post comes to: a request that is turned down and answered with its promise,
a task that is taken on, or a post that is refused by `false` or a throw. -/
theorem postMessageInner_outcome (c : Pool V) (m : Message V) (tr : TransferList) (o : PostOptions)
    (detached : List ℕ) :
    TurnsDown W c m o ∧ LeftOut c (c.postMessageInner W T m tr o detached).1 ∧
        (∃ n, (c.postMessageInner W T m tr o detached).2 = .promise n) ∨
      ¬ TurnsDown W c m o ∧ (TookOn c (c.postMessageInner W T m tr o detached).1 ∨
        (c.postMessageInner W T m tr o detached).2 = .refused ∨
        ∃ e, (c.postMessageInner W T m tr o detached).2 = .threw e) := by
  unfold Pool.postMessageInner TurnsDown
  by_cases hterm : c.terminated = true
  · rw [if_pos hterm, hterm]
    exact Or.inr ⟨fun h => Bool.noConfusion h.1, Or.inr (Or.inr ⟨_, rfl⟩)⟩
  · have hlive : c.terminated = false := by simpa using hterm
    rw [if_neg hterm]
    cases hd : Pool.deadlineOf o with
    | error e =>
      refine Or.inr ⟨fun h => ?_, Or.inr (Or.inr ⟨_, rfl⟩)⟩
      obtain ⟨-, -, d, hd', -⟩ := h
      cases hd'
    | ok deadlineAt =>
      have hsame := SameTasks.leastFor W c o.workerId
      have hnow : (c.leastFor W o.workerId).1.now = c.now := by
        unfold Pool.leastFor Pool.selectWorker
        dsimp only
        repeat' split
        all_goals rfl
      dsimp only
      cases hs : o.signal.filter (· ∈ c.aborted) with
      | some s =>
        obtain ⟨hsig, hs⟩ := Option.filter_eq_some_iff.mp hs
        have hs : s ∈ c.aborted := by simpa using hs
        unfold Pool.refuseAborted
        cases hwant : o.wantResponse with
        | true =>
          exact Or.inl ⟨⟨hlive, rfl, deadlineAt, rfl, Or.inl ⟨s, hsig, hs⟩⟩,
            ⟨hsame.posted, hsame.enqueued⟩, _, rfl⟩
        | false => exact Or.inr ⟨fun h => Bool.noConfusion h.2.1, Or.inr (Or.inl rfl)⟩
      | none =>
        have hs : ¬ ∃ s ∈ o.signal, s ∈ c.aborted := by
          rintro ⟨s, hsig, hab⟩
          have hnot := Option.filter_eq_none_iff.mp hs s hsig
          simp [hab] at hnot
        cases hwant : o.wantResponse with
        | false =>
          refine Or.inr ⟨fun h => Bool.noConfusion h.2.1, ?_⟩
          rcases postFor_outcome W T (c.leastFor W o.workerId).1 (c.leastFor W o.workerId).2 m tr none
            deadlineAt o detached with ⟨-, -, ⟨-, hr⟩ | ⟨key, n, hw, -⟩⟩ | ⟨-, htook⟩
          · exact Or.inr (Or.inl hr)
          · cases hw
          · exact Or.inl (hsame.leftOut.trans_tookOn htook)
        | true =>
          cases hplain : m.isPlainObject with
          | false =>
            have hthrows : ((c.leastFor W o.workerId).1.postRequest W T (c.leastFor W o.workerId).2 m tr
                deadlineAt o detached).2 =
                  .threw "postMessage awaitResponse requires a plain-object message" := by
              unfold Pool.postRequest
              dsimp only
              rw [if_neg (by rw [hplain]; exact Bool.false_ne_true)]
            refine Or.inr ⟨fun h => ?_, Or.inr (Or.inr ⟨_, hthrows⟩)⟩
            obtain ⟨-, -, d, -, hab | ⟨hp, -⟩⟩ := h
            · exact hs hab
            · cases hp
          | true =>
            have hout := postRequest_outcome W T (c.leastFor W o.workerId).1
              (c.leastFor W o.workerId).2 tr deadlineAt o detached hplain
            rw [hnow] at hout
            rcases hout with ⟨⟨hid, hends⟩, hleft, hr⟩ | ⟨hnot, hr⟩
            · exact Or.inl ⟨⟨hlive, rfl, deadlineAt, rfl, Or.inr ⟨rfl, hid, hends⟩⟩,
                ⟨hleft.1.trans hsame.posted, hleft.2.trans hsame.enqueued⟩, hr⟩
            · refine Or.inr ⟨fun h => ?_, ?_⟩
              · obtain ⟨-, -, d, hd', hab | ⟨-, hid, hends⟩⟩ := h
                · exact hs hab
                · cases hd'
                  exact hnot ⟨hid, hends⟩
              · rcases hr with htook | hr
                · exact Or.inl (hsame.leftOut.trans_tookOn htook)
                · exact Or.inr (Or.inl hr)

/-! ## The key -/

/-- A post that claims its key and is refused, nothing of it being queued or posted,
leaves no entry of the key, and the next post with the key is no duplicate. -/
def FreesKey (c : Pool V) (l : Ledger) (k : String) (m : Message V) (tr : TransferList)
    (o : PostOptions) (detached : List ℕ) : Prop :=
  let r := postMessage W T c l (some k) m tr o detached
  (begin l (some k) c.now).2 = true → LeftOut c r.1 →
    (∀ e ∈ r.2.1.entries, e.key ≠ k) ∧ ∀ now, (begin r.2.1 (some k) now).2 = true

theorem begin_of_gone {l : Ledger} {k : String} (h : ∀ e ∈ l.entries, e.key ≠ k) (now : ℚ) :
    (begin l (some k) now).2 = true := by
  unfold begin
  dsimp only
  have hnone : (sweep { l with lookups := l.lookups + 1 } now).get k = none := by
    refine List.find?_eq_none.mpr fun e he => ?_
    have hmem := (sweep_sublist _ now).subset he
    simpa using h e hmem
  rw [hnone]

theorem mem_begin {l : Ledger} {k : String} {now : ℚ} (h : (begin l (some k) now).2 = true) :
    ⟨k, none⟩ ∈ (begin l (some k) now).1.entries := by
  unfold begin at h ⊢
  dsimp only at h ⊢
  split at h
  · cases h
  · exact List.mem_append_right _ List.mem_cons_self

/-- A refused post frees its key exactly when it is no request that is turned down (or
was a duplicate to begin with). -/
theorem freesKey_iff (c : Pool V) (l : Ledger) (k : String) (m : Message V) (tr : TransferList)
    (o : PostOptions) (detached : List ℕ) :
    FreesKey W T c l k m tr o detached ↔
      ((begin l (some k) c.now).2 = true → ¬ TurnsDown W c m o) := by
  unfold FreesKey postMessage
  dsimp only
  cases hbegin : (begin l (some k) c.now).2 with
  | false => exact ⟨fun _ h => Bool.noConfusion h, fun _ h => Bool.noConfusion h⟩
  | true =>
    have hfreed : (∀ e ∈ (release (begin l (some k) c.now).1 (some k)).entries, e.key ≠ k) ∧
        ∀ now, (begin (release (begin l (some k) c.now).1 (some k)) (some k) now).2 = true :=
      ⟨fun _ he => (mem_release.mp he).2, begin_of_gone fun _ he => (mem_release.mp he).2⟩
    rw [if_pos rfl]
    simp only [true_imp_iff]
    rcases postMessageInner_outcome W T c m tr o detached with ⟨hdown, hleft, n, hr⟩ | ⟨hnot, h⟩
    · -- the promise settles the key
      rw [hr]
      constructor
      · intro hfrees
        exact absurd rfl ((hfrees hleft).1 _ (mem_settle.mpr (Or.inr ⟨rfl, _, mem_begin hbegin, rfl⟩)))
      · intro hno
        exact absurd hdown hno
    · refine ⟨fun _ => hnot, fun _ hleft => ?_⟩
      rcases h with htook | hr | ⟨e, hr⟩
      · refine absurd ?_ htook.not_leftOut
        revert hleft
        cases (c.postMessageInner W T m tr o detached).2 <;> exact id
      · rw [hr]
        exact hfreed
      · rw [hr]
        exact hfreed

/-- A pool of one worker that takes one task at a time and queues none. -/
def rejecting : Pool (Option (List UInt8)) :=
  .new .sound { maxTasksPerWorker := some 1, queuePolicy := .reject } 1 1 1 0

/-- A request with a key to a busy pool: its promise is rejected by the queue policy,
and the key stays. -/
theorem rejected_request_keeps_key :
    let c := (rejecting.postMessageInner .sound idText (.object none) none {} []).1
    ¬ FreesKey .sound idText c (.empty 1000 (by norm_num)) "a" (.object none) none
      { awaitResponse := true } [] := by
  intro c h
  have hfreed := (h (by decide +kernel) ⟨by decide +kernel, by decide +kernel⟩).1
  exact hfreed ⟨"a", some 0⟩ (by decide +kernel) rfl

end PerformanceHelpers.PowerPool
