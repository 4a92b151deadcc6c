import PerformanceHelpers.PowerCache.Window

/- What a call does to a list, as moves of its nodes.

   Whatever a call comes to, it is a row of a few moves: a node is used, written,
   put in or taken out, or one of the cursors is. `Move c xs ms c' xs'` is one of
   them, from the list `xs` to `xs'`, and `ms` is what becomes of the entries. What
   is kept by every move is kept by every call, so an invariant of the list is
   proved here once for each move, and never for a call. -/
namespace PerformanceHelpers.PowerCache

variable {K V : Type}

inductive Mark (K : Type) where
  | inserted (key : K)
  | written (key : K)
  | used (key : K)
  | removed (key : K)
  | evicted (key : K)
  deriving DecidableEq, Repr

def Mark.leaves : Mark K → Bool
  | .removed _ | .evicted _ => true
  | .inserted _ | .written _ | .used _ => false

def Mark.grows : Mark K → Bool
  | .inserted _ | .written _ => true
  | .used _ | .removed _ | .evicted _ => false

/-- What a callback says of an entry. What is rejected was in no list. -/
def Callback.mark : Callback K V → Option (Mark K)
  | .onEvict key _ reason =>
    if reason = "evicted" then key.map .evicted
    else if reason = "rejected-oversized" then none
    else key.map .removed
  | .onExpire key _ => key.map .removed

/-- What is evicted is the head of the list. -/
def InOrder (c : Config K V) : Prop := c.policy ≠ .sieve ∧ c.missCost = none ∧ ¬Windowed c

variable [DecidableEq K]

/-- One move of the list `xs`. What happens in front of an admission window is left open
but for the nodes that are in the list. -/
inductive Move : Cache K V → List ℕ → List (Mark K) → Cache K V → List ℕ → Prop where
  | note {c c' : Cache K V} {xs : List ℕ} (cbs : List (Callback K V))
      (config : c'.toConfig = c.toConfig) (key : c'.key = c.key) (weight : c'.weight = c.weight)
      (heap : c'.toHeap = c.toHeap) (current : c'.currentWeight = c.currentWeight)
      (log : c'.log = c.log ++ cbs) (unmarked : cbs.filterMap Callback.mark = []) :
      Move c xs [] c' xs
  | head {c : Cache K V} {xs : List ℕ} : Move c xs [] { c with evictionCandidate := c.main.head } xs
  | cursor {c : Cache K V} {xs : List ℕ} (cursor : Option ℕ) (mem : ∀ i ∈ cursor, i ∈ xs) :
      Move c xs [] { c with cleanupCursor := cursor, cleanupCursorValid := cursor.isSome } xs
  | hand {c : Cache K V} {xs : List ℕ} (visited : ℕ → Bool) (hand : Option ℕ)
      (mem : ∀ i ∈ hand, i ∈ xs ∧ c.policy = .sieve) :
      Move c xs [] { c with visited, sieveHand := hand } xs
  | use {c : Cache K V} {xs l r : List ℕ} {i : ℕ} {k : K} (nodes : xs = l ++ i :: r)
      (key : c.key i = some k) (window : PastWindow c i) :
      Move c xs [.used k] (moveToTail c i) (usedOrder c.policy l i r)
  | write {c : Cache K V} {xs : List ℕ} {i : ℕ} {k : K} (mem : i ∈ xs) (key : c.key i = some k)
      (value : ℕ → Option V) (w x : ℚ) (weight : 0 ≤ w) : Move c xs [.written k] { c with
        currentWeight := c.currentWeight - c.weight i + w
        value, weight := Function.update c.weight i w
        expiresAt := Function.update c.expiresAt i x } xs
  | insert {c : Cache K V} {xs l r : List ℕ} {k : K} (v : V) (w x : ℚ) (nodes : xs = l ++ r)
      (weight : 0 ≤ w) (fresh : c.map.get k = none) (place : Place c l r)
      (window : ¬Windowed c.toConfig) :
      Move c xs [.inserted k] (insertNode c k v w x) (l ++ (takeNode c).2 :: r)
  | drop {c : Cache K V} {xs l r : List ℕ} {i : ℕ} {k : K} {m : Mark K} (advance : Bool)
      (cs : Counters) (cb : Callback K V) (nodes : xs = l ++ i :: r) (key : c.key i = some k)
      (mark : m = .removed k ∨ m = .evicted k) (callback : cb.mark = some m)
      (first : m = .evicted k → InOrder c.toConfig → l = []) :
      Move c xs [m]
        (freeNode { unlinkNode c i advance with counters := cs, log := c.log ++ [cb] } i) (l ++ r)
  | window {c c' : Cache K V} {xs xs' : List ℕ} {ms : List (Mark K)}
      (windowed : Windowed c.toConfig) (listed : Listed c' xs') (config : c'.toConfig = c.toConfig)
      (key : c'.key = c.key) (weight : c'.weight = c.weight)
      (current : c'.currentWeight = c.currentWeight) (log : c'.log = c.log) (perm : xs'.Perm xs)
      (marks : ∀ m ∈ ms, ∃ k, m = .used k) : Move c xs ms c' xs'
  | enter {c c' : Cache K V} {xs xs' : List ℕ} {k : K} (windowed : Windowed c.toConfig)
      (listed : Listed c' xs') (config : c'.toConfig = c.toConfig) (log : c'.log = c.log)
      (weights : (∀ i, 0 ≤ c.weight i) → ∀ i, 0 ≤ c'.weight i) : Move c xs [.inserted k] c' xs'

inductive Moves : Cache K V → List ℕ → List (Mark K) → Cache K V → List ℕ → Prop where
  | refl (c : Cache K V) (xs : List ℕ) : Moves c xs [] c xs
  | tail {c c' c'' : Cache K V} {xs xs' xs'' : List ℕ} {ms ms' : List (Mark K)} :
      Moves c xs ms c' xs' → Move c' xs' ms' c'' xs'' → Moves c xs (ms ++ ms') c'' xs''

section
variable {c c' c'' : Cache K V} {xs xs' xs'' l r : List ℕ} {ms ms' : List (Mark K)} {i : ℕ} {k : K}
  {v : V} {w x : ℚ}

/-! ## What a move leaves alone -/

theorem unlinkNode_log {advance : Bool} : (unlinkNode c i advance).log = c.log := by
  cases hp : c.policy <;> cases hq : c.queue i <;>
    simp only [unlinkNode, remove, dropRefs, hp, hq] <;> rfl

theorem protect_log : (protect c i).log = c.log := by
  have hremove : (remove c i).log = c.log := by
    cases hp : c.policy <;> cases hq : c.queue i <;> simp only [remove, hp, hq] <;> rfl
  simp only [protect]
  split
  · rfl
  · exact hremove

theorem moveToTail_log (hpol : c.policy ≠ .s3fifo) (hwindow : PastWindow c i) :
    (moveToTail c i).log = c.log := by
  have hremove : (remove c i).log = c.log := by
    cases hp : c.policy <;> cases hq : c.queue i <;> simp only [remove, hp, hq] <;> rfl
  cases hp : c.policy with
  | s3fifo => exact absurd hp hpol
  | lru =>
    rw [moveToTail_lru hp hwindow]
    split
    · rfl
    · exact hremove
  | slru =>
    rw [moveToTail_slru hp]
    exact protect_log
  | sieve =>
    rw [moveToTail_sieve hp]

theorem insertNode_log (hpol : c.policy ≠ .s3fifo) : (insertNode c k v w x).log = c.log := by
  have htake : (takeNode c).1.log = c.log := by
    cases hp : c.pool <;> simp only [takeNode, hp]
  have hpol' : (allocNode c k v w x).1.policy ≠ .s3fifo := by
    rw [allocNode_policy]
    exact hpol
  rw [insertNode_list hpol]
  obtain ⟨links, main, candidate, probationEnd, hand, happend⟩ :=
    append_list (c := { (allocNode c k v w x).1 with
      map := (allocNode c k v w x).1.map.set k (takeNode c).2 }) (i := (takeNode c).2) hpol'
  simp only [happend]
  exact htake

theorem insertNode_weights (hw : 0 ≤ w) (h : ∀ i, 0 ≤ c.weight i) (i : ℕ) :
    0 ≤ (insertNode c k v w x).weight i := by
  have hfields : (insertNode c k v w x).weight = Function.update c.weight (takeNode c).2 w :=
    congrArg Fields.weight insertNode_frame.2.1
  rw [hfields]
  by_cases hi : i = (takeNode c).2
  · rw [hi, Function.update_self]
    exact hw
  · rw [Function.update_of_ne hi]
    exact h i

namespace Move

section
variable (h : Move c xs ms c' xs')
include h

section
variable (hlisted : Listed c xs)
include hlisted

theorem listed : Listed c' xs' := by
  cases h with
  | note cbs config key weight heap current log unmarked =>
    refine ⟨?_, ⟨?_, ?_, by simp [onlyMain]⟩, ?_, ?_⟩
    · rw [config]
      exact hlisted.policy
    · rw [heap, key]
      exact hlisted.layout.shape
    · rw [current, weight]
      exact hlisted.layout.weight
    · rw [heap]
      exact hlisted.boundary
    · rw [heap, config]
      exact hlisted.hand
  | head =>
    exact ⟨hlisted.policy, ⟨hlisted.layout.shape.marked _ _ _ _ _ _ _, hlisted.layout.weight,
      hlisted.layout.ghostWeight⟩, hlisted.boundary, hlisted.hand⟩
  | cursor cursor mem =>
    exact ⟨hlisted.policy, ⟨hlisted.layout.shape.setCursor mem, hlisted.layout.weight,
      hlisted.layout.ghostWeight⟩, hlisted.boundary, hlisted.hand⟩
  | hand visited hand mem =>
    exact ⟨hlisted.policy, ⟨hlisted.layout.shape.marked _ _ _ _ _ _ _, hlisted.layout.weight,
      hlisted.layout.ghostWeight⟩, hlisted.boundary, mem⟩
  | use nodes key window =>
    subst nodes
    exact (hlisted.moveToTail window).1
  | write mem key value w x weight => exact hlisted.write mem value w x
  | insert v w x nodes weight fresh place window =>
    subst nodes
    exact (hlisted.insertNode fresh place).1
  | drop advance cs cb nodes key mark callback first =>
    subst nodes
    exact hlisted.unlinked cs _
  | window windowed listed config key weight current log perm marks => exact listed
  | enter windowed listed config log weights => exact listed

theorem config : c'.toConfig = c.toConfig := by
  cases h with
  | note cbs config key weight heap current log unmarked => exact config
  | head | cursor _ _ | hand _ _ _ | write _ _ _ _ _ _ => rfl
  | use nodes key window => exact (moveToTail_frame_list hlisted.policy window).1
  | insert v w x nodes weight fresh place window => exact insertNode_frame.1
  | drop advance cs cb nodes key mark callback first => exact unlinkNode_toConfig
  | window windowed listed config key weight current log perm marks => exact config
  | enter windowed listed config log weights => exact config

theorem weights (hweights : ∀ i, 0 ≤ c.weight i) :
    ∀ i, 0 ≤ c'.weight i := by
  have hupdate : ∀ (i : ℕ) (w : ℚ), 0 ≤ w → ∀ j, 0 ≤ Function.update c.weight i w j := by
    intro i w hw j
    by_cases hj : j = i
    · rw [hj, Function.update_self]
      exact hw
    · rw [Function.update_of_ne hj]
      exact hweights j
  cases h with
  | note cbs config key weight heap current log unmarked =>
    rw [weight]
    exact hweights
  | head | cursor _ _ | hand _ _ _ => exact hweights
  | use nodes key window =>
    rw [(moveToTail_frame_list hlisted.policy window).2.1]
    exact hweights
  | write mem key value w x weight => exact hupdate _ w weight
  | insert v w x nodes weight fresh place window => exact insertNode_weights weight hweights
  | drop advance cs cb nodes key mark callback first =>
    show ∀ j, 0 ≤ Function.update (unlinkNode c _ advance).weight _ 0 j
    rw [unlinkNode_toFields]
    exact hupdate _ 0 le_rfl
  | window windowed listed config key weight current log perm marks =>
    rw [weight]
    exact hweights
  | enter windowed listed config log weights => exact weights hweights

theorem shrinks (hweights : ∀ i, 0 ≤ c.weight i)
    (hms : ¬∃ m ∈ ms, m.grows) : xs'.length ≤ xs.length ∧ c'.currentWeight ≤ c.currentWeight := by
  cases h with
  | note cbs config key weight heap current log unmarked => exact ⟨le_rfl, current.le⟩
  | head | cursor _ _ | hand _ _ _ => exact ⟨le_rfl, le_rfl⟩
  | use nodes key window =>
    subst nodes
    refine ⟨?_, (moveToTail_frame_list hlisted.policy window).2.2.le⟩
    exact (usedOrder_perm _ _ _ _).length_eq.le
  | write mem key value w x weight => exact absurd ⟨_, List.mem_singleton_self _, rfl⟩ hms
  | insert v w x nodes weight fresh place window =>
    exact absurd ⟨_, List.mem_singleton_self _, rfl⟩ hms
  | drop advance cs cb nodes key mark callback first =>
    subst nodes
    refine ⟨by simp, ?_⟩
    show (unlinkNode c _ advance).currentWeight ≤ c.currentWeight
    rw [unlinkNode_currentWeight]
    exact sub_le_self _ (hweights _)
  | window windowed listed config key weight current log perm marks =>
    exact ⟨perm.length_eq.le, current.le⟩
  | enter windowed listed config log weights =>
    exact absurd ⟨_, List.mem_singleton_self _, rfl⟩ hms

/-- What leaves the list is called back, in this order. -/
theorem log :
    ∃ cbs, c'.log = c.log ++ cbs ∧ cbs.filterMap Callback.mark = ms.filter Mark.leaves := by
  have hsame : ∀ ms : List (Mark K), ms.filter Mark.leaves = [] → c'.log = c.log →
      ∃ cbs, c'.log = c.log ++ cbs ∧ cbs.filterMap Callback.mark = ms.filter Mark.leaves := by
    intro ms hms hlog
    exact ⟨[], by rw [hlog, List.append_nil], by rw [hms]; rfl⟩
  cases h with
  | note cbs config key weight heap current log unmarked => exact ⟨cbs, log, unmarked⟩
  | head | cursor _ _ | hand _ _ _ | write _ _ _ _ _ _ => exact hsame _ rfl rfl
  | use nodes key window => exact hsame _ rfl (moveToTail_log hlisted.policy window)
  | insert v w x nodes weight fresh place window => exact hsame _ rfl (insertNode_log hlisted.policy)
  | drop advance cs cb nodes key mark callback first =>
    refine ⟨[cb], rfl, ?_⟩
    rw [List.filterMap_cons_some callback]
    rcases mark with rfl | rfl <;> rfl
  | window windowed listed config key weight current log perm marks =>
    refine hsame _ (List.filter_eq_nil_iff.mpr fun m hm => ?_) log
    obtain ⟨k, rfl⟩ := marks m hm
    simp [Mark.leaves]
  | enter windowed listed config log weights => exact hsame _ rfl log

end

end

end Move

namespace Moves

theorem of_move (h : Move c xs ms c' xs') : Moves c xs ms c' xs' := by
  simpa using (Moves.refl c xs).tail h

section
variable (h : Moves c xs ms c' xs')
include h

theorem trans (h' : Moves c' xs' ms' c'' xs'') :
    Moves c xs (ms ++ ms') c'' xs'' := by
  induction h' with
  | refl c => rwa [List.append_nil]
  | tail _ hmove ih =>
    rw [← List.append_assoc]
    exact (ih h).tail hmove

section
variable (hlisted : Listed c xs)
include hlisted

theorem listed : Listed c' xs' := by
  induction h with
  | refl c => exact hlisted
  | tail _ hmove ih => exact hmove.listed (ih hlisted)

theorem config : c'.toConfig = c.toConfig := by
  induction h with
  | refl c => rfl
  | tail hmoves hmove ih => exact (hmove.config (hmoves.listed hlisted)).trans (ih hlisted)

theorem weights (hweights : ∀ i, 0 ≤ c.weight i) :
    ∀ i, 0 ≤ c'.weight i := by
  induction h with
  | refl c => exact hweights
  | tail hmoves hmove ih =>
    exact hmove.weights (hmoves.listed hlisted) (ih hlisted)

theorem shrinks (hweights : ∀ i, 0 ≤ c.weight i)
    (hms : ¬∃ m ∈ ms, m.grows) : xs'.length ≤ xs.length ∧ c'.currentWeight ≤ c.currentWeight := by
  induction h with
  | refl c => exact ⟨le_rfl, le_rfl⟩
  | tail hmoves hmove ih =>
    have hfirst := ih hlisted fun ⟨m, hm, hgrows⟩ =>
      hms ⟨m, List.mem_append_left _ hm, hgrows⟩
    have hlast := hmove.shrinks (hmoves.listed hlisted) (hmoves.weights hlisted hweights)
      fun ⟨m, hm, hgrows⟩ => hms ⟨m, List.mem_append_right _ hm, hgrows⟩
    exact ⟨hlast.1.trans hfirst.1, hlast.2.trans hfirst.2⟩

theorem log :
    ∃ cbs, c'.log = c.log ++ cbs ∧ cbs.filterMap Callback.mark = ms.filter Mark.leaves := by
  induction h with
  | refl c => exact ⟨[], (List.append_nil _).symm, rfl⟩
  | tail hmoves hmove ih =>
    obtain ⟨cbs, hlog, hmarks⟩ := ih hlisted
    obtain ⟨cbs', hlog', hmarks'⟩ := hmove.log (hmoves.listed hlisted)
    refine ⟨cbs ++ cbs', ?_, ?_⟩
    · rw [hlog', hlog, List.append_assoc]
    · rw [List.filterMap_append, List.filter_append, hmarks, hmarks']

end

end

end Moves

end

end PerformanceHelpers.PowerCache
