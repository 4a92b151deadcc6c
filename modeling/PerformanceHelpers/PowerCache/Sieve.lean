import PerformanceHelpers.PowerCache.Sweeps

/- The second chance of SIEVE.

   An eviction takes the first node from the hand on that was not read, and the marks of
   those before it off. Where every node from the hand on was read it takes the last one:
   the hand stays at the tail, and does not come back to the head before that node goes.
   Nodes in front of the hand that were not read are then spared
   (`read_tail_is_evicted`). -/
namespace PerformanceHelpers.PowerCache

variable {K V : Type} {c c₀ : Cache K V} {xs l r : List ℕ} {i : ℕ} {k : K}

/-- The hand is null or on a node of the list. -/
def HandLinked (c : Cache K V) : Prop := ∀ i ∈ c.sieveHand, i ∈ nodes c

def fromHand (c : Cache K V) : List ℕ := walk c.links.next c.nextNode (c.sieveHand <|> c.main.head)

/-- The loop of `_sieveEvict` does not go on. -/
def Ended (c : Cache K V) : Prop :=
  overLimit c c.map.size = false ∨ (c.sieveHand <|> c.main.head) = none

/-- A node that an eviction takes was not read, or all nodes were but those that come in:
`start` is the cache before the eviction. -/
def SparesRead (inserted : List K) (start : Cache K V) (victim : ℕ) : Prop :=
  start.visited victim = false ∨
    ∀ i ∈ nodes start, start.visited i = true ∨ ∃ key ∈ start.key i, key ∈ inserted

def HandMeets (inserted : List K) (start : Cache K V) : Prop :=
  (∃ i ∈ fromHand start, start.visited i = false) ∨
    ∀ i ∈ nodes start, start.visited i = true ∨ ∃ key ∈ start.key i, key ∈ inserted

variable [DecidableEq K]

instance (inserted : List K) (start : Cache K V) (victim : ℕ) :
    Decidable (SparesRead inserted start victim) :=
  inferInstanceAs (Decidable (_ ∨ ∀ i ∈ nodes start, _ ∨ ∃ key ∈ start.key i, _))

instance (inserted : List K) (start : Cache K V) : Decidable (HandMeets inserted start) :=
  inferInstanceAs (Decidable ((∃ i ∈ fromHand start, _) ∨
    ∀ i ∈ nodes start, _ ∨ ∃ key ∈ start.key i, _))

/-- The evictions of `_sieveEvict`: the cache each one starts from, and the node it takes. -/
def sieveEvictions : ℕ → Cache K V → Cache K V → List (Cache K V × ℕ)
  | 0, _, _ => []
  | turns + 1, start, c =>
    if overLimit c c.map.size then
      match c.sieveHand <|> c.main.head with
      | none => []
      | some i =>
        if c.visited i then sieveEvictions turns start (sieveOne c i)
        else (start, i) :: sieveEvictions turns (sieveOne c i) (sieveOne c i)
    else []

/-- `set` up to its `_evictIfNeeded`, if it comes to that, and the key it inserts. -/
def setEnforces (c : Cache K V) (key : K) (value : V) (ttl : Option Ttl) (weight : Option Weight)
    (now : ℚ) : Option (Cache K V × List K) :=
  match expiresAtOf (ttl.getD c.defaultTTL) now with
  | .error _ => none
  | .ok expiresAt =>
    let w := computeWeight c.weightFn value weight
    let inserted := if (lookup c key).isNone then [key] else []
    let c := countWeightError c value weight
    if oversized c w then none
    else
      let p := putValue c key value w expiresAt
      if p.2 then some (countKey p.1 key, inserted) else none

/-- `setMany` up to its `_evictIfNeeded`. -/
def setManyEnforces (c : Cache K V) (entries : List (K × V)) (ttl : Option Ttl)
    (weight : Option Weight) (now : ℚ) : Option (Cache K V × List K) :=
  match expiresAtOf (ttl.getD .never) now with
  | .error _ => none
  | .ok expiresAt => some (entries.foldl (setManyOne expiresAt weight) c,
      (entries.map Prod.fst).filter fun key => (c.map.get key).isNone)

/-- The end of `getOrSet`, up to the `_evictIfNeeded` of its `set`. -/
def produceEnforces (c : Cache K V) (key : K) (factory : Factory V) (ttl : Option Ttl)
    (weight : Option Weight) (now : ℚ) : Option (Cache K V × List K) :=
  match factory with
  | .throws _ | .promises => none
  | .value v | .returns v => setEnforces c key v ttl weight now

def enforces (c : Cache K V) : Call K V → Option (Cache K V × List K)
  | .event (.set key value ttl weight now) => setEnforces c key value ttl weight now
  | .event (.setMany entries ttl weight now) => setManyEnforces c entries ttl weight now
  | .event (.resize maxEntries maxWeight) => some (limited c (.resize maxEntries maxWeight), [])
  | .getOrSet key factory ttl weight swr now setNow =>
    match findNode c key (swr.getD c.allowStale) now with
    | (c, none) => produceEnforces (countMiss c true) key factory ttl weight setNow
    | (c, some i) =>
      if expiredAt c i now && !(factory.isFunction && staleServable c i now) then
        produceEnforces (countMiss (removeExpiredNode c i) true) key factory ttl weight setNow
      else none
  | _ => none

/-- The evictions of a call are those it calls back, end, and spare what was read. -/
def SecondChance (c : Cache K V) (cl : Call K V) : Prop :=
  ∀ p ∈ enforces c cl, let es := sieveEvictions (2 * p.1.nextNode) p.1 p.1
    (call c cl).log = p.1.log ++ es.map (fun e => evicted e.1 e.2) ∧ Ended (evictIfNeeded p.1) ∧
      ∀ e ∈ es, SparesRead p.2 e.1 e.2

/-- Every eviction of a call starts where `HandMeets`. -/
def HandsMeet (c : Cache K V) (cl : Call K V) : Prop :=
  ∀ p ∈ enforces c cl, ∀ e ∈ sieveEvictions (2 * p.1.nextNode) p.1 p.1, HandMeets p.2 e.1

instance (c : Cache K V) (cl : Call K V) : Decidable (HandsMeet c cl) :=
  inferInstanceAs (Decidable (∀ p ∈ enforces c cl, ∀ e ∈ sieveEvictions _ p.1 p.1, _))

/-! ## One eviction -/

/-- An eviction that started from `c₀` has come to `i`: the nodes from the hand on up to
it were read, and are not marked any more. Once it has come to the tail it stays there. -/
structure Looking (c₀ c : Cache K V) (xs : List ℕ) (i : ℕ) : Prop where
  ready : Ready c xs
  policy : c.policy = .sieve
  fields : c.toFields = c₀.toFields
  log : c.log = c₀.log
  hand : ∃ l m r, xs = l ++ (m ++ i :: r) ∧ fromHand c₀ = m ++ i :: r ∧
    (∀ j ∈ m, c₀.visited j = true) ∧ ((∀ j ∈ i :: r, c.visited j = c₀.visited j) ∨
      r = [] ∧ c₀.visited i = true ∧ c.visited i = false)

theorem Ready.fromHand_eq (h : Ready c (l ++ i :: r)) (hi : (c.sieveHand <|> c.main.head) = some i) :
    fromHand c = i :: r := by
  have hle := h.length_le
  have hlength : (i :: r).length ≤ c.nextNode := by
    rw [List.length_append] at hle
    omega
  rw [fromHand, hi]
  exact h.linked.walk_suffix rfl hlength

theorem Ready.hand_mem (h : Ready c xs) (hi : (c.sieveHand <|> c.main.head) = some i) : i ∈ xs := by
  rw [Option.orElse_eq_orElse, Option.orElse_eq_or, Option.or_eq_some_iff] at hi
  rcases hi with hi | ⟨-, hi⟩
  · exact (h.hand i hi).1
  · exact List.mem_of_head? (h.linked.head_eq.symm.trans hi)

namespace Looking

theorem start (h : Ready c xs) (hpol : c.policy = .sieve)
    (hi : (c.sieveHand <|> c.main.head) = some i) : Looking c c xs i := by
  obtain ⟨l, r, rfl⟩ := List.append_of_mem (h.hand_mem hi)
  exact ⟨h, hpol, rfl, rfl, l, [], r, rfl, h.fromHand_eq hi, by simp, Or.inl fun _ _ => rfl⟩

/-- A node that was read is passed over. -/
theorem pass (h : Looking c₀ c xs i) (hread : c.visited i = true) :
    ∃ j, (sieveOne c i).sieveHand = some j ∧ Looking c₀ (sieveOne c i) xs j := by
  obtain ⟨hready, hpol, hfields, hlog, l, m, r, rfl, hfrom, hm, hvisited⟩ := h
  have hsame : ∀ j ∈ i :: r, c.visited j = c₀.visited j := by
    refine hvisited.resolve_right ?_
    rintro ⟨-, -, hunread⟩
    rw [hread] at hunread
    cases hunread
  have hiread : c₀.visited i = true := by
    rw [← hsame i List.mem_cons_self]
    exact hread
  have hone : sieveOne c i = { c with
      sieveHand := c.links.next i <|> c.main.tail
      visited := Function.update c.visited i false } := by
    simp only [sieveOne, hread, if_true]
  have hxs : l ++ (m ++ i :: r) = (l ++ m) ++ i :: r := (List.append_assoc l m _).symm
  rw [hxs] at hready
  obtain ⟨k, hk⟩ := hready.keyed (i := i) (by simp)
  have hnext := hready.next_eq
  have hnot := hready.notMem
  rcases hready.sieveOne hpol hk with ⟨-, hgoes, hmarks⟩ | ⟨hunread, -⟩
  · have hstep : ∀ j, Looking c₀ (sieveOne c i) (l ++ (m ++ i :: r)) j ↔
        ∃ l' m' r', l ++ (m ++ i :: r) = l' ++ (m' ++ j :: r') ∧ fromHand c₀ = m' ++ j :: r' ∧
          (∀ j ∈ m', c₀.visited j = true) ∧
          ((∀ a ∈ j :: r', (sieveOne c i).visited a = c₀.visited a) ∨
            r' = [] ∧ c₀.visited j = true ∧ (sieveOne c i).visited j = false) := by
      intro j
      refine ⟨fun h => h.hand, fun hhand => ⟨?_, ?_, ?_, ?_, hhand⟩⟩
      · rw [hxs]
        exact hgoes.ready
      · rw [hone]
        exact hpol
      · rw [hone]
        exact hfields
      · rw [hone]
        exact hlog
    cases r with
    | nil =>
      -- the hand stays at the tail
      refine ⟨i, ?_, (hstep i).mpr ⟨l, m, [], rfl, hfrom, hm, Or.inr ⟨rfl, hiread, ?_⟩⟩⟩
      · rw [hone]
        show (c.links.next i <|> c.main.tail) = some i
        rw [hnext, hready.linked.tail_eq]
        simp
      · rw [hmarks]
        exact Function.update_self _ _ _
    | cons j r =>
      refine ⟨j, ?_, (hstep j).mpr ⟨l, m ++ [i], r, by simp, by simp [hfrom], ?_, Or.inl ?_⟩⟩
      · rw [hone]
        show (c.links.next i <|> c.main.tail) = some j
        rw [hnext]
        rfl
      · intro a ha
        rcases List.mem_append.mp ha with ha | ha
        · exact hm a ha
        · rw [List.mem_singleton.mp ha]
          exact hiread
      · intro a ha
        have hne : a ≠ i := by
          rintro rfl
          exact hnot (List.mem_append_right _ ha)
        rw [hmarks, Function.update_of_ne hne]
        exact hsame a (List.mem_cons_of_mem i ha)
  · rw [hread] at hunread
    cases hunread

/-- A node that is not marked goes: it was read only if all nodes from the hand on were. -/
theorem take (h : Looking c₀ c xs i) (hunread : c.visited i = false) :
    (c₀.visited i = false ↔ ∃ j ∈ fromHand c₀, c₀.visited j = false) ∧
      (sieveOne c i).policy = .sieve ∧ (sieveOne c i).log = c₀.log ++ [evicted c₀ i] ∧
      ∃ xs', Ready (sieveOne c i) xs' := by
  obtain ⟨hready, hpol, hfields, hlog, l, m, r, rfl, hfrom, hm, hvisited⟩ := h
  have hxs : l ++ (m ++ i :: r) = (l ++ m) ++ i :: r := (List.append_assoc l m _).symm
  rw [hxs] at hready
  obtain ⟨k, hk⟩ := hready.keyed (i := i) (by simp)
  refine ⟨?_, ?_⟩
  · rw [hfrom]
    rcases hvisited with hsame | ⟨rfl, hread, -⟩
    · have hi : c₀.visited i = false := by
        rw [← hsame i List.mem_cons_self]
        exact hunread
      exact ⟨fun _ => ⟨i, by simp, hi⟩, fun _ => hi⟩
    · constructor
      · intro hi
        rw [hread] at hi
        cases hi
      · rintro ⟨j, hj, hj'⟩
        rcases List.mem_append.mp hj with hj | hj
        · rw [hm j hj] at hj'
          cases hj'
        · rw [List.mem_singleton.mp hj, hread] at hj'
          cases hj'
  · rcases hready.sieveOne hpol hk with ⟨hread, -⟩ | ⟨-, hgoes, -⟩
    · rw [hread] at hunread
      cases hunread
    · refine ⟨?_, ?_, _, hgoes.ready⟩
      · rw [hgoes.moves.config hready.toListed]
        exact hpol
      · have hlog' : (sieveOne c i).log = c.log ++ [evicted c i] := by
          simp only [sieveOne, hunread, Bool.false_eq_true, if_false]
          let c' : Cache K V := { c with sieveHand := c.links.next i <|> c.main.tail }
          obtain ⟨cs, hdrop⟩ := dropNode_eq (abortInflight c' (c.key i)) i false "evicted"
          rw [hdrop]
          show (abortInflight c' (c.key i)).log ++ _ = _
          rw [abortInflight_log, abortInflight_toFields]
          rfl
        rw [hlog', hlog]
        simp only [evicted, hfields]

end Looking

/-- The loop: a victim was read only if all nodes from the hand on were, and the victims are
those that are called back. -/
theorem sieveEvictions_spec (h : Ready c xs) (hpol : c.policy = .sieve) (hlog : c.log = c₀.log)
    (hlook : ∀ i, (c.sieveHand <|> c.main.head) = some i → Looking c₀ c xs i) (turns : ℕ) :
    (∀ e ∈ sieveEvictions turns c₀ c,
      e.1.visited e.2 = false ↔ ∃ j ∈ fromHand e.1, e.1.visited j = false) ∧
      (sieveEvict turns c).log = c.log ++ (sieveEvictions turns c₀ c).map fun e => evicted e.1 e.2 := by
  induction turns generalizing c₀ c xs with
  | zero => exact ⟨by simp [sieveEvictions], by simp [sieveEvictions, sieveEvict]⟩
  | succ turns ih =>
    rw [sieveEvictions, sieveEvict]
    split
    · cases hi : (c.sieveHand <|> c.main.head) with
      | none => exact ⟨by simp, by simp⟩
      | some i =>
        have hi' := hlook i hi
        cases hread : c.visited i with
        | true =>
          obtain ⟨j, hhand, hj⟩ := hi'.pass hread
          simp only [hread, if_true]
          have hsame : (sieveOne c i).log = c.log := hj.log.trans hlog.symm
          rw [← hsame]
          refine ih hj.ready hj.policy hj.log fun j' hj' => ?_
          rw [hhand] at hj'
          obtain rfl : j = j' := Option.some.inj hj'
          exact hj
        | false =>
          obtain ⟨hspares, hpol', hlog', xs', hready⟩ := hi'.take hread
          obtain ⟨hrest, hlogs⟩ := ih hready hpol' rfl fun j hj => .start hready hpol' hj
          simp only [hread, Bool.false_eq_true, if_false]
          refine ⟨fun e he => ?_, ?_⟩
          · rcases List.mem_cons.mp he with rfl | he
            · exact hspares
            · exact hrest e he
          · rw [hlogs, hlog', hlog]
            simp
    · exact ⟨by simp, by simp⟩

/-! ## Calls -/

structure Enforced (c : Cache K V) (p : Cache K V × List K) (c' : Cache K V) : Prop where
  ready : ∃ ys, Ready p.1 ys
  policy : p.1.policy = c.policy
  log : c'.log = (evictIfNeeded p.1).log

namespace Ready

variable {p : Cache K V × List K} {v : V} {ttl : Option Ttl} {weight : Option Weight} {now : ℚ}

protected theorem setEnforces (h : Ready c xs) (hp : p ∈ setEnforces c k v ttl weight now) :
    ∃ r, set c k v ttl weight now = .ok r ∧ Enforced c p r.1 := by
  have hcount := h.countWeightError v weight
  have hconfig := hcount.moves.config h.toListed
  simp only [setEnforces, Option.mem_def] at hp
  simp only [set]
  cases hx : expiresAtOf (ttl.getD c.defaultTTL) now with
  | error e => simp [hx] at hp
  | ok x =>
    have hover : oversized (countWeightError c v weight) (computeWeight c.weightFn v weight) =
        oversized c (computeWeight c.weightFn v weight) := by simp only [oversized, hconfig]
    obtain ⟨ms, ys, hput, -⟩ := hcount.ready.putValue (k := k) (v := v) (x := x)
      (computeWeight_nonneg c.weightFn v weight)
    have hkey := hput.trans (hput.ready.countKey k)
    simp only [hx, hover] at hp
    refine ⟨_, rfl, ?_⟩
    rw [store_eq]
    split at hp
    · cases hp
    · next hfit =>
      rw [if_neg hfit]
      split at hp
      · next hstored =>
        obtain rfl := Option.some.inj hp
        simp only [hstored, if_true]
        refine ⟨⟨ys, hkey.ready⟩, ?_, rfl⟩
        rw [hkey.moves.config hcount.ready.toListed, hconfig]
      · cases hp

protected theorem produceEnforces {factory : Factory V} (h : Ready c xs)
    (hp : p ∈ produceEnforces c k factory ttl weight now) :
    Enforced c p (produce c k factory ttl weight now).1 := by
  have hset : ∀ v, p ∈ setEnforces c k v ttl weight now →
      Enforced c p (produce c k (.value v) ttl weight now).1 := by
    intro v hv
    obtain ⟨r, hr, henforced⟩ := h.setEnforces hv
    simp only [produce, hr]
    exact henforced
  cases factory with
  | value v | returns v => exact hset v hp
  | promises | throws _ => cases hp

/-- `getOrSet` where the key is missing, or was until now. -/
theorem missEnforces {factory : Factory V} {ms : List (Mark K)} {c' : Cache K V} {xs' : List ℕ}
    (h : Ready c xs) (hgoes : Goes c xs ms c' xs')
    (hp : p ∈ produceEnforces (countMiss c' true) k factory ttl weight now) :
    Enforced c p (produce (countMiss c' true) k factory ttl weight now).1 := by
  have hmiss := hgoes.trans (hgoes.ready.countMiss true)
  obtain ⟨hready, hpolicy, hlog⟩ := hmiss.ready.produceEnforces hp
  exact ⟨hready, hpolicy.trans (congrArg Config.policy (hmiss.moves.config h.toListed)), hlog⟩

theorem foundEnforces {factory : Factory V} {setNow : ℚ} (h : Ready c (l ++ i :: r))
    (hhead : AtHead c) (hk : c.key i = some k)
    (hp : p ∈ if expiredAt c i now && !(factory.isFunction && staleServable c i now) then
      produceEnforces (countMiss (PowerCache.removeExpiredNode c i) true) k factory ttl weight setNow
      else none) : Enforced c p (serveFound c k factory ttl weight now setNow i).1 := by
  have hdrop := h.head_droppable hhead (i := i) (by simp)
  have hremove := h.removeExpiredNode hk (h.droppable hdrop)
  unfold serveFound
  cases hexp : expiredAt c i now with
  | false => simp [hexp] at hp
  | true =>
    cases hserve : factory.isFunction && staleServable c i now with
    | true => simp [hexp, hserve] at hp
    | false =>
      simp only [hexp, hserve, Bool.not_false, Bool.true_and, Bool.false_eq_true, if_true,
        if_false] at hp ⊢
      exact h.missEnforces hremove hp

/-- A call that enforces the limits ends with `_evictIfNeeded`. -/
theorem enforces {cl : Call K V} (h : Ready c xs) (hpol : c.policy = .sieve) (hp : p ∈ enforces c cl) :
    Enforced c p (call c cl) := by
  have hhead : AtHead c := h.atHead (Or.inl hpol)
  cases cl with
  | event ev =>
    cases ev with
    | set key value ttl weight now =>
      obtain ⟨r, hr, henforced⟩ := h.setEnforces hp
      simp only [PowerCache.call, step, hr, settleCall]
      exact henforced
    | setMany entries ttl weight now =>
      change p ∈ setManyEnforces c entries ttl weight now at hp
      simp only [setManyEnforces, Option.mem_def] at hp
      simp only [PowerCache.call, step, setMany]
      cases hx : expiresAtOf (ttl.getD .never) now with
      | error e => simp [hx] at hp
      | ok x =>
        obtain ⟨ms, ys, hloop, -⟩ := h.setManyLoop (x := x) weight entries
        rw [hx] at hp
        obtain rfl := Option.some.inj hp
        simp only [settleCall, Except.map]
        exact ⟨⟨ys, hloop.ready⟩, congrArg Config.policy (hloop.moves.config h.toListed), rfl⟩
    | resize n w =>
      obtain rfl := Option.some.inj hp
      exact ⟨⟨xs, h.limited (.resize n w)⟩, rfl, rfl⟩
    | _ => cases hp
  | getOrSet key factory ttl weight swr now setNow =>
    change p ∈ (match findNode c key (swr.getD c.allowStale) now with
      | (c, none) =>
        produceEnforces (countMiss c true) key factory ttl weight setNow
      | (c, some i) =>
        if expiredAt c i now && !(factory.isFunction && staleServable c i now) then
          produceEnforces (countMiss (PowerCache.removeExpiredNode c i) true) key factory ttl
            weight setNow
        else none) at hp
    rw [PowerCache.call, getOrSet_eq]
    cases hallow : swr.getD c.allowStale with
    | true =>
      have hfind : findNode c key true now = (c, lookup c key) := by
        simp only [findNode, if_true]
        cases lookup c key <;> simp [h.policy]
      rw [hallow, hfind] at hp
      rw [hfind]
      cases hi : lookup c key with
      | none =>
        rw [hi] at hp
        exact h.missEnforces (.refl h) hp
      | some i =>
        obtain ⟨l, r, rfl, hk⟩ := h.lookup_split hi
        rw [hi] at hp
        exact h.foundEnforces hhead hk hp
    | false =>
      have hfind : findNode c key false now = fetchValidNode c key false false now := rfl
      rw [hallow, hfind] at hp
      rw [hfind]
      have hkeeps : LookupKeeps c key false now := h.head_lookup hhead
      rcases h.fetchValidNode false hkeeps with ⟨c', ms, xs', hfetch, -, hgoes, -⟩ |
        ⟨i, l, r, hfetch, -, hi, rfl, hk⟩
      · rw [hfetch] at hp ⊢
        exact h.missEnforces hgoes hp
      · rw [hfetch] at hp ⊢
        exact h.foundEnforces hhead hk hp
  | clear => cases hp

theorem callOk {cl : Call K V} (h : Ready c xs) (hhead : AtHead c) : CallOk c cl := by
  cases cl with
  | event ev => exact h.head_ok ev hhead
  | getOrSet key factory ttl weight swr now setNow =>
    intro i hi _
    obtain ⟨l, r, rfl, -⟩ := h.lookup_split hi
    exact h.head_droppable hhead (by simp)
  | clear => trivial

theorem call_policy {cl : Call K V} (h : Ready c xs) (hok : CallOk c cl) :
    (call c cl).policy = c.policy := by
  cases cl with
  | event ev =>
    obtain ⟨ms, xs', hgoes, -⟩ := h.step hok
    have hconfig := hgoes.moves.config (h.limited ev).toListed
    refine (congrArg Config.policy hconfig).trans ?_
    cases ev <;> rfl
  | getOrSet key factory ttl weight swr now setNow =>
    obtain ⟨ms, xs', hgoes, -⟩ := h.getOrSet hok
    exact congrArg Config.policy (hgoes.moves.config h.toListed)
  | clear => exact congrArg Config.policy (clear_frame h.layout).1

end Ready

/-! ## Runs -/

structure Sieving (c : Cache K V) : Prop where
  held : ∃ xs, Held c xs
  policy : c.policy = .sieve

theorem Sieving.call (h : Sieving c) (cl : Call K V) : Sieving (call c cl) := by
  obtain ⟨⟨xs, hheld⟩, hpol⟩ := h
  have hok : CallOk c cl := hheld.toReady.callOk (hheld.toReady.atHead (Or.inl hpol))
  exact ⟨hheld.call hok, (hheld.toReady.call_policy hok).trans hpol⟩

omit [DecidableEq K] in
theorem Sieving.handLinked (h : Sieving c) : HandLinked c := by
  obtain ⟨⟨xs, hheld⟩, -⟩ := h
  intro i hi
  rw [hheld.toReady.nodes_eq]
  exact (hheld.hand i hi).1

omit [DecidableEq K] in
theorem Ready.ended (h : Ready c xs) (hdone : Done c xs) : Ended c := by
  rcases hdone with hfits | rfl
  · exact Or.inl hfits
  · right
    have hhead : c.main.head = none := h.linked.head_none_iff.mpr rfl
    have hhand : c.sieveHand = none := by
      rw [Option.eq_none_iff_forall_not_mem]
      intro i hi
      exact List.not_mem_nil (h.hand i hi).1
    rw [hhead, hhand]
    rfl

theorem Sieving.secondChance_iff (h : Sieving c) (cl : Call K V) :
    SecondChance c cl ↔ HandsMeet c cl := by
  obtain ⟨⟨xs, hheld⟩, hpol⟩ := h
  refine forall₂_congr fun p hp => ?_
  obtain ⟨⟨ys, hready⟩, hpol', hlog⟩ := hheld.toReady.enforces hpol hp
  have hsieve : p.1.policy = .sieve := hpol'.trans hpol
  have hevict : evictIfNeeded p.1 = sieveEvict (2 * p.1.nextNode) p.1 := by
    simp only [evictIfNeeded, hsieve]
  obtain ⟨hread, hlogs⟩ := sieveEvictions_spec hready hsieve rfl
    (fun i hi => .start hready hsieve hi) (2 * p.1.nextNode)
  have hended : Ended (evictIfNeeded p.1) := by
    obtain ⟨ms, zs, hgoes, -, hdone⟩ := hready.evictIfNeeded
    exact hgoes.ready.ended hdone
  rw [hevict, hlogs] at hlog
  constructor
  · rintro ⟨-, -, hspares⟩ e he
    exact (hspares e he).imp_left (hread e he).mp
  · intro hmeets
    exact ⟨hlog, hended, fun e he => (hmeets e he).imp_left (hread e he).mpr⟩

/-- In every run the hand is null or linked, and the evictions end. They spare what was read
exactly where each starts with a node from the hand on that was not, or with none that was
not at all but those that come in. -/
theorem second_chance_iff {o : Options K V} {c : Cache K V} (hnew : new o = .ok c)
    (hpol : o.policy = .sieve) (cs : List (Call K V)) :
    Always call HandLinked c cs ∧ (Meets call SecondChance c cs ↔ Meets call HandsMeet c cs) := by
  have hstart : Sieving c := by
    refine ⟨⟨[], Held.new hnew (by simp [hpol])⟩, ?_⟩
    obtain ⟨maxEntries, inflight, maxWeight, pool, rfl, -⟩ := new_eq_initial hnew
    exact hpol
  constructor
  · have hall : Always call Sieving c cs := always_of_step (fun _ cl h => h.call cl) hstart cs
    exact hall.mono fun _ h => h.handLinked
  · exact meets_iff_meets (fun _ cl h => h.call cl) (fun _ cl h => h.secondChance_iff cl) hstart

/-- One eviction clears the mark of the entry the hand is on; a row of them goes over the
tail. -/
theorem second_chance_evicts :
    let o : Options ℕ ℕ := { policy := .sieve, maxEntries := some 3 }
    let c : Cache ℕ ℕ := initial o (some 3) 3 none (some 1000)
    let cs : List (Call ℕ ℕ) := [.event (.set 1 10 none none 1), .event (.set 2 20 none none 2),
      .event (.set 3 30 none none 3), .event (.get 1 4), .event (.set 4 40 none none 5),
      .event (.delete 3), .event (.get 4 6), .event (.setMany [(5, 50), (6, 60), (1, 11)] none none 7),
      .event (.resize (some 1) none)]
    Always call HandLinked c cs ∧ Meets call SecondChance c cs := by
  intro o c cs
  have hnew : new o = .ok c := rfl
  obtain ⟨hlinked, hiff⟩ := second_chance_iff hnew rfl cs
  refine ⟨hlinked, hiff.mpr ?_⟩
  clear hlinked hiff hnew
  subst o c cs
  decide +kernel

/-- The first entry was not read when the two behind it, which were, make room: the hand goes
over both and takes the last one. -/
theorem read_tail_is_evicted :
    let o : Options ℕ ℕ := { policy := .sieve, maxEntries := some 3 }
    let c : Cache ℕ ℕ := initial o (some 3) 3 none (some 1000)
    let cs : List (Call ℕ ℕ) := [.event (.set 1 10 none none 1), .event (.set 2 20 none none 2),
      .event (.set 3 30 none none 3), .event (.get 1 4), .event (.set 4 40 none none 5),
      .event (.get 3 6), .event (.get 4 7), .event (.resize (some 2) none)]
    new o = .ok c ∧ ¬(Always call HandLinked c cs ∧ Meets call SecondChance c cs) := by
  intro o c cs
  refine ⟨rfl, ?_⟩
  rintro ⟨-, h⟩
  have hspares : Meets call (fun c cl => ∀ p ∈ enforces c cl,
      ∀ e ∈ sieveEvictions (2 * p.1.nextNode) p.1 p.1, SparesRead p.2 e.1 e.2) c cs :=
    Meets.imp (P := fun _ => True) h (fun _ _ _ _ => trivial) (fun _ _ _ h p hp => (h p hp).2.2) trivial
  revert hspares
  clear h
  subst o c cs
  decide +kernel

end PerformanceHelpers.PowerCache
