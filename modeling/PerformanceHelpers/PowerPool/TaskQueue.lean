import PerformanceHelpers.PowerPool.State
import PerformanceHelpers.PowerQueue
import PerformanceHelpers.PriorityQueue

/- The task queue of a `PowerPool` (`src/helpers/powerPool.js`, `_makeTaskQueue`): a
   `PowerPriorityQueue`, or, where priorities age, a `PowerQueue` that is scanned. The
   pool's list of queued items is what either holds (`Backs`).

   What is proved:
     1. `takeBest_eq_some_iff` — what is taken is the first of the highest priority, and
        the others stay in their order.
     2. `Backs.shift`, `Backs.shiftForReply` — either structure answers what the list
        takes, and holds what the list leaves. -/
namespace PerformanceHelpers.PowerPool

/-! ## The first of the best -/

section
variable {α : Type} {f : α → ℚ} {xs ys pre post : List α} {x : α}

/-- `x` stands between `pre` and `post` as the first of the greatest. -/
structure FirstBest (f : α → ℚ) (pre : List α) (x : α) (post : List α) : Prop where
  before : ∀ z ∈ pre, f z < f x
  after : ∀ z ∈ post, f z ≤ f x

theorem FirstBest.takeBest_eq (h : FirstBest f pre x post) :
    takeBest f (pre ++ x :: post) = some (x, pre ++ post) := by
  induction pre with
  | nil =>
    rw [List.nil_append, takeBest]
    cases hpost : takeBest f post with
    | none =>
      cases post with
      | nil => rfl
      | cons y ys =>
        rw [takeBest] at hpost
        split at hpost
        · cases hpost
        · split at hpost <;> cases hpost
    | some yws =>
      have hmem : yws.1 ∈ post := (takeBest_perm hpost).mem_iff.mpr List.mem_cons_self
      dsimp only
      rw [if_neg (not_lt.mpr (h.after _ hmem))]
      rfl
  | cons z pre ih =>
    have hrest := ih ⟨fun w hw => h.before w (List.mem_cons_of_mem _ hw), h.after⟩
    rw [List.cons_append, takeBest, hrest]
    dsimp only
    rw [if_pos (h.before z List.mem_cons_self)]
    rfl

theorem takeBest_eq_some_iff : takeBest f xs = some (x, ys) ↔
    ∃ pre post, xs = pre ++ x :: post ∧ ys = pre ++ post ∧ FirstBest f pre x post := by
  constructor
  · intro h
    induction xs generalizing x ys with
    | nil => cases h
    | cons z zs ih =>
      rw [takeBest] at h
      cases hz : takeBest f zs with
      | none =>
        rw [hz] at h
        cases h
        cases zs with
        | nil => exact ⟨[], [], rfl, rfl, ⟨fun _ h => absurd h List.not_mem_nil, fun _ h => absurd h List.not_mem_nil⟩⟩
        | cons w ws =>
          rw [takeBest] at hz
          split at hz
          · cases hz
          · split at hz <;> cases hz
      | some yws =>
        obtain ⟨y, ws⟩ := yws
        obtain ⟨pre, post, rfl, rfl, hbest⟩ := ih hz
        rw [hz] at h
        dsimp only at h
        split at h
        · next hlt =>
          cases h
          refine ⟨z :: pre, post, rfl, rfl, fun w hw => ?_, hbest.after⟩
          rcases List.mem_cons.mp hw with rfl | hw
          · exact hlt
          · exact hbest.before w hw
        · next hge =>
          cases h
          refine ⟨[], pre ++ y :: post, rfl, rfl, fun _ h => absurd h List.not_mem_nil, fun w hw => ?_⟩
          have hy : f y ≤ f z := not_lt.mp hge
          rcases List.mem_append.mp hw with hw | hw
          · exact (hbest.before w hw).le.trans hy
          · rcases List.mem_cons.mp hw with rfl | hw
            · exact hy
            · exact (hbest.after w hw).trans hy
  · rintro ⟨pre, post, rfl, rfl, hbest⟩
    exact hbest.takeBest_eq

theorem takeBest_eq_none : takeBest f xs = none ↔ xs = [] := by
  constructor
  · intro h
    cases xs with
    | nil => rfl
    | cons z zs =>
      rw [takeBest] at h
      split at h
      · cases h
      · split at h <;> cases h
  · rintro rfl
    rfl

end

/-! ## The scan of a `PowerQueue` -/

section
variable {α : Type} {f : α → ℚ}

def finitePriority (f : α → ℚ) (item : Option α) : PowerQueue.Priority :=
  item.map fun a => ((f a : WithTop ℚ) : WithBot (WithTop ℚ))

theorem gt_finite (a b : α) :
    (finitePriority f (some a)).gt (finitePriority f (some b)) = decide (f b < f a) := by
  simp [finitePriority, PowerQueue.Priority.gt]

theorem scan_spec (items : List α) {pre post : List α} {x : α} (h : FirstBest f pre x post) :
    ∃ pre' x' post', pre ++ x :: post ++ items = pre' ++ x' :: post' ∧ FirstBest f pre' x' post' ∧
      ((items.map some).zipIdx (pre ++ x :: post).length).foldl (PowerQueue.bestOf (finitePriority f))
        (pre.length, finitePriority f (some x)) = (pre'.length, finitePriority f (some x')) := by
  induction items generalizing pre x post with
  | nil => exact ⟨pre, x, post, List.append_nil _, h, rfl⟩
  | cons y items ih =>
    rw [List.map_cons, List.zipIdx_cons, List.foldl_cons, PowerQueue.bestOf, gt_finite]
    by_cases hlt : f x < f y
    · rw [if_pos (decide_eq_true hlt)]
      have hbest : FirstBest f (pre ++ x :: post) y [] := by
        refine ⟨fun z hz => ?_, fun _ h => absurd h List.not_mem_nil⟩
        rcases List.mem_append.mp hz with hz | hz
        · exact (h.before z hz).trans hlt
        · rcases List.mem_cons.mp hz with rfl | hz
          · exact hlt
          · exact (h.after z hz).trans_lt hlt
      obtain ⟨pre', x', post', heq, hbest', hfold⟩ := ih hbest
      refine ⟨pre', x', post', ?_, hbest', ?_⟩
      · rw [← heq]
        simp
      · have hlen : (pre ++ x :: post ++ [y]).length = (pre ++ x :: post).length + 1 := by
          rw [List.length_append, List.length_singleton]
        rw [hlen] at hfold
        exact hfold
    · rw [if_neg (by simpa using hlt)]
      have hbest : FirstBest f pre x (post ++ [y]) := by
        refine ⟨h.before, fun z hz => ?_⟩
        rcases List.mem_append.mp hz with hz | hz
        · exact h.after z hz
        · obtain rfl := List.mem_singleton.mp hz
          exact not_lt.mp hlt
      obtain ⟨pre', x', post', heq, hbest', hfold⟩ := ih hbest
      refine ⟨pre', x', post', ?_, hbest', ?_⟩
      · rw [← heq]
        simp
      · have hlen : (pre ++ x :: (post ++ [y])).length = (pre ++ x :: post).length + 1 := by
          simp only [List.length_append, List.length_cons, List.length_nil]
          omega
        rw [hlen] at hfold
        exact hfold

theorem removed_bestIndex (xs : List α) :
    PowerQueue.removed xs (PowerQueue.bestIndex (finitePriority f) (xs.map some)) =
      match takeBest f xs with
      | none => (none, xs)
      | some (x, rest) => (some x, rest) := by
  cases xs with
  | nil => rfl
  | cons x xs =>
    have hstart : FirstBest f [] x [] :=
      ⟨fun _ h => absurd h List.not_mem_nil, fun _ h => absurd h List.not_mem_nil⟩
    obtain ⟨pre, y, post, heq, hbest, hfold⟩ := scan_spec xs hstart
    have hindex : PowerQueue.bestIndex (finitePriority f) ((x :: xs).map some) = pre.length := by
      rw [List.map_cons, PowerQueue.bestIndex]
      exact congrArg Prod.fst hfold
    have hlist : x :: xs = pre ++ y :: post := heq
    rw [hindex, hlist, hbest.takeBest_eq]
    unfold PowerQueue.removed
    rw [if_neg (by simp only [List.length_append, List.length_cons]; omega)]
    rw [Int.toNat_natCast, List.eraseIdx_append_of_length_le le_rfl, Nat.sub_self, List.eraseIdx_cons_zero]
    simp

end

/-! ## The two structures -/

variable {V : Type}

/-- What a `PowerPriorityQueue` reads of a queued item: it has no `weight`. -/
def itemFields (item : QueueItem V) : Option PriorityQueue.Fields :=
  some ⟨item.priority.map .finite, none⟩

theorem itemPriority_fields (item : QueueItem V) :
    PriorityQueue.itemPriority (itemFields item) = item.itemPriority := by
  unfold PriorityQueue.itemPriority itemFields QueueItem.itemPriority
  cases item.priority <;> rfl

/-- What a `PowerQueue` weighs a queued item at. -/
def itemWeight (_ : QueueItem V) : ℤ := 1

/-- The queue of a pool. -/
inductive TaskQueue (V : Type) where
  | heap (q : PriorityQueue.Queue (QueueItem V))
  | ring (q : PowerQueue.Queue (QueueItem V))

namespace TaskQueue

/-- `_makeTaskQueue`; `none` where the constructor throws. -/
def make (priorityAgingMs : ℚ) : Option (TaskQueue V) :=
  if 0 < priorityAgingMs then (PowerQueue.new none).toOption.map .ring
  else (PriorityQueue.new none).toOption.map .heap

/-- `queue.push(item)`; `none` where it throws. -/
def push (q : TaskQueue V) (item : QueueItem V) : Option (TaskQueue V) :=
  match q with
  | .heap q =>
    match (PriorityQueue.push itemFields q item).2 with
    | .ok _ => some (.heap (PriorityQueue.push itemFields q item).1)
    | .error _ => none
  | .ring q =>
    match (PowerQueue.push itemWeight q item).2 with
    | .ok _ => some (.ring (PowerQueue.push itemWeight q item).1)
    | .error _ => none

def answered (r : PowerQueue.Outcome (QueueItem V)) : Option (QueueItem V) :=
  match r with
  | .ok (.item item) => item
  | _ => none

/-- `queue.shift()`. -/
def shift (q : TaskQueue V) : TaskQueue V × Option (QueueItem V) :=
  match q with
  | .heap q => (.heap (PriorityQueue.shift q).1, (PriorityQueue.shift q).2)
  | .ring q => (.ring (PowerQueue.shift itemWeight q).1, answered (PowerQueue.shift itemWeight q).2)

/-- What `worker.onmessage` calls: the heap's `shift`, or the scan. -/
def shiftForReply (agingMs now : ℚ) (q : TaskQueue V) : TaskQueue V × Option (QueueItem V) :=
  match q with
  | .heap q => (.heap (PriorityQueue.shift q).1, (PriorityQueue.shift q).2)
  | .ring q =>
    let r := PowerQueue.shiftHighestPriority itemWeight q
      (finitePriority (QueueItem.agedPriority agingMs now))
    (.ring r.1, answered r.2)

end TaskQueue

/-- The structure holds the items of the list, which are in the order they were pushed in. -/
def Backs (agingMs : ℚ) (q : TaskQueue V) (items : List (QueueItem V)) : Prop :=
  match q with
  | .heap q => agingMs ≤ 0 ∧ ∃ entries aged : List (PriorityQueue.Entry (QueueItem V)),
      PriorityQueue.Holds itemFields q entries ∧ aged.Perm entries ∧
        aged.Pairwise (fun a b => a.seq < b.seq) ∧ aged.map PriorityQueue.Entry.item = items
  | .ring q => 0 < agingMs ∧ PowerQueue.Holds itemWeight q items

section
variable {agingMs : ℚ} {q q' : TaskQueue V} {items : List (QueueItem V)} {item : QueueItem V}

theorem Backs.make (h : TaskQueue.make agingMs = some q) : Backs agingMs q [] := by
  unfold TaskQueue.make at h
  split at h
  · next hpos =>
    cases hnew : (PowerQueue.new none : Except PowerQueue.Failure (PowerQueue.Queue (QueueItem V))) with
    | error e =>
      rw [hnew] at h
      cases h
    | ok r =>
      rw [hnew] at h
      cases h
      exact ⟨hpos, PowerQueue.Holds.new hnew⟩
  · next hneg =>
    cases hnew : (PriorityQueue.new none : Except String (PriorityQueue.Queue (QueueItem V))) with
    | error e =>
      rw [hnew] at h
      cases h
    | ok r =>
      rw [hnew] at h
      cases h
      exact ⟨not_lt.mp hneg, [], [], PriorityQueue.Holds.new hnew, List.Perm.refl _, List.Pairwise.nil, rfl⟩

/-- A push that does not throw puts the item behind those of at least its priority, as the
newest. -/
theorem holds_push {α : Type} {fields : α → Option PriorityQueue.Fields} {q : PriorityQueue.Queue α}
    {entries : List (PriorityQueue.Entry α)} {x : α} {n : ℕ} (h : PriorityQueue.Holds fields q entries)
    (hok : (PriorityQueue.push fields q x).2 = .ok n) :
    PriorityQueue.Holds fields (PriorityQueue.push fields q x).1
      (entries.orderedInsert (fun a b => b.priority < a.priority)
        ⟨x, PriorityQueue.itemPriority (fields x), q.seq⟩) := by
  unfold PriorityQueue.push at hok ⊢
  by_cases hfull : q.capacity - 1 ≤ q.size
  · rw [if_pos hfull] at hok ⊢
    unfold PriorityQueue.grow at hok ⊢
    by_cases hlong : PriorityQueue.maxArrayLength < max 4 (q.capacity * 2)
    · rw [if_pos hlong] at hok
      cases hok
    · rw [if_neg hlong]
      have hgrown : PriorityQueue.Holds fields { q with capacity := max 4 (q.capacity * 2) } entries :=
        { h with }
      exact hgrown.insert x
  · rw [if_neg hfull]
    exact h.insert x

theorem Backs.push (h : Backs agingMs q items) (hpush : q.push item = some q') :
    Backs agingMs q' (items ++ [item]) := by
  cases q with
  | heap q =>
    obtain ⟨haging, entries, aged, hholds, hperm, hages, hitems⟩ := h
    unfold TaskQueue.push at hpush
    dsimp only at hpush
    cases hok : (PriorityQueue.push itemFields q item).2 with
    | error e =>
      rw [hok] at hpush
      cases hpush
    | ok n =>
      rw [hok] at hpush
      cases hpush
      refine ⟨haging, _, aged ++ [⟨item, PriorityQueue.itemPriority (itemFields item), q.seq⟩],
        holds_push hholds hok, ?_, ?_, ?_⟩
      · exact (List.perm_append_singleton _ aged).trans
          ((hperm.cons _).trans (List.perm_orderedInsert _ _ _).symm)
      · rw [List.pairwise_append]
        refine ⟨hages, List.pairwise_singleton _ _, fun a ha b hb => ?_⟩
        obtain rfl := List.mem_singleton.mp hb
        exact hholds.seq a (hperm.mem_iff.mp ha)
      · rw [List.map_append, hitems]
        rfl
  | ring q =>
    obtain ⟨haging, hholds⟩ := h
    unfold TaskQueue.push at hpush
    dsimp only at hpush
    cases hok : (PowerQueue.push itemWeight q item).2 with
    | error e =>
      rw [hok] at hpush
      cases hpush
    | ok a =>
      rw [hok] at hpush
      cases hpush
      by_cases hroom : items.length < 2 ^ 30
      · exact ⟨haging, (hholds.push hroom).2⟩
      · obtain ⟨⟨e, hthrows⟩, -⟩ := hholds.push_throws (x := item) (not_lt.mp hroom)
        rw [hok] at hthrows
        cases hthrows

theorem heap_shift {q : PriorityQueue.Queue (QueueItem V)}
    {entries aged : List (PriorityQueue.Entry (QueueItem V))}
    (hholds : PriorityQueue.Holds itemFields q entries) (hperm : aged.Perm entries)
    (hages : aged.Pairwise fun a b => a.seq < b.seq) :
    match takeBest QueueItem.itemPriority (aged.map PriorityQueue.Entry.item) with
    | none => (PriorityQueue.shift q).2 = none
    | some (item, rest) => (PriorityQueue.shift q).2 = some item ∧
        ∃ entries' aged' : List (PriorityQueue.Entry (QueueItem V)),
          PriorityQueue.Holds itemFields (PriorityQueue.shift q).1 entries' ∧ aged'.Perm entries' ∧
            aged'.Pairwise (fun a b => a.seq < b.seq) ∧ aged'.map PriorityQueue.Entry.item = rest := by
  obtain ⟨hheld, hitem⟩ := hholds.shift
  cases entries with
  | nil =>
    obtain rfl := List.perm_nil.mp hperm
    exact hitem
  | cons e rest =>
    obtain ⟨pre, post, rfl⟩ := List.append_of_mem (hperm.mem_iff.mpr List.mem_cons_self)
    have hrest : (pre ++ post).Perm rest := (List.perm_middle.symm.trans hperm).cons_inv
    have hfirst (z : PriorityQueue.Entry (QueueItem V)) (hz : z ∈ pre ++ post) :
        z.priority < e.priority ∨ e.priority = z.priority ∧ e.seq < z.seq :=
      PriorityQueue.key_lt.mp (List.rel_of_pairwise_cons hholds.sorted (hrest.mem_iff.mp hz))
    have hpriority (z : PriorityQueue.Entry (QueueItem V)) (hz : z ∈ pre ++ e :: post) :
        z.item.itemPriority = z.priority := by
      rw [hholds.priority z (hperm.mem_iff.mp hz), itemPriority_fields]
    have he := hpriority e (List.mem_append_right _ List.mem_cons_self)
    obtain ⟨-, -, hbefore⟩ := List.pairwise_append.mp hages
    have hbest : FirstBest QueueItem.itemPriority (pre.map PriorityQueue.Entry.item) e.item
        (post.map PriorityQueue.Entry.item) := by
      constructor
      · intro x hx
        obtain ⟨z, hz, rfl⟩ := List.mem_map.mp hx
        rw [hpriority z (List.mem_append_left _ hz), he]
        rcases hfirst z (List.mem_append_left _ hz) with hlt | ⟨-, hseq⟩
        · exact hlt
        · -- what was pushed before it is older
          exact absurd (hbefore z hz e List.mem_cons_self) (not_lt.mpr hseq.le)
      · intro x hx
        obtain ⟨z, hz, rfl⟩ := List.mem_map.mp hx
        rw [hpriority z (List.mem_append_right _ (List.mem_cons_of_mem _ hz)), he]
        rcases hfirst z (List.mem_append_right _ hz) with hlt | ⟨heq, -⟩
        · exact hlt.le
        · exact heq.ge
    rw [List.map_append, List.map_cons, hbest.takeBest_eq]
    refine ⟨hitem, rest, pre ++ post, hheld, hrest, ?_, List.map_append⟩
    exact hages.sublist ((List.sublist_cons_self e post).append_left pre)

/-- A `shift` answers what the list takes, and leaves what the list leaves. -/
def Takes (agingMs : ℚ) (r : TaskQueue V × Option (QueueItem V))
    (taken : Option (QueueItem V × List (QueueItem V))) : Prop :=
  match taken with
  | none => r.2 = none
  | some (item, rest) => r.2 = some item ∧ Backs agingMs r.1 rest

theorem Backs.shift {c : Pool V} (h : Backs c.priorityAgingMs q items) :
    Takes c.priorityAgingMs q.shift (c.shift items) := by
  unfold Pool.shift
  cases q with
  | heap q =>
    obtain ⟨haging, entries, aged, hholds, hperm, hages, rfl⟩ := h
    have hshift := heap_shift hholds hperm hages
    rw [if_pos haging]
    unfold Takes
    split at hshift
    · exact hshift
    · exact ⟨hshift.1, haging, hshift.2⟩
  | ring q =>
    obtain ⟨haging, hholds⟩ := h
    obtain ⟨hanswer, hheld⟩ := hholds.shift
    rw [if_neg (not_le.mpr haging)]
    unfold Takes TaskQueue.shift
    cases items with
    | nil =>
      dsimp only [List.head?_nil, Option.map_none]
      rw [hanswer]
      rfl
    | cons item items =>
      dsimp only [List.head?_cons, Option.map_some]
      rw [hanswer]
      exact ⟨rfl, haging, hheld⟩

theorem Backs.shiftForReply {c : Pool V} (h : Backs c.priorityAgingMs q items) :
    Takes c.priorityAgingMs (q.shiftForReply c.priorityAgingMs c.now) (c.shiftForReply items) := by
  unfold Pool.shiftForReply
  cases q with
  | heap q =>
    rw [if_pos h.1]
    exact h.shift
  | ring q =>
    obtain ⟨haging, hholds⟩ := h
    obtain ⟨hanswer, hheld⟩ := hholds.shiftHighestPriority
      (finitePriority (QueueItem.agedPriority c.priorityAgingMs c.now))
    rw [if_neg (not_le.mpr haging)]
    rw [removed_bestIndex] at hanswer hheld
    unfold Takes TaskQueue.shiftForReply
    dsimp only
    rw [hanswer]
    cases htaken : takeBest (QueueItem.agedPriority c.priorityAgingMs c.now) items with
    | none => rfl
    | some p =>
      rw [htaken] at hheld
      exact ⟨rfl, haging, hheld⟩

end

end PerformanceHelpers.PowerPool
