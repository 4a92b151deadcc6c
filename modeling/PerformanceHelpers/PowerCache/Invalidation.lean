import PerformanceHelpers.PowerCache.Routes
import PerformanceHelpers.PowerCache.Removals

/- Bulk removal: `invalidate`.

   The predicate is asked about every node first, in one list or in three, and what it
   selects is taken out afterwards, where `_map` still finds it. `_map` finds what is in
   Main: an entry of Small is selected and stays. -/
namespace PerformanceHelpers.PowerCache
open Function (update_self update update_of_ne)

variable {K V ε : Type} {c c' : Cache K V} {qs : Queue → List ℕ} {xs l r doomed : List ℕ} {i : ℕ} {n : ℕ}
  {k : K}

def queueNodes (c : Cache K V) (q : Queue) : List ℕ :=
  walk c.links.next c.nextNode (c.toHeap.ends q).head

/-- The nodes the first loop of `invalidate` passes over. -/
def walkedNodes (c : Cache K V) : List ℕ :=
  match c.policy with
  | .lru | .slru | .sieve => queueNodes c .main
  | .s3fifo => queueNodes c .main ++ (queueNodes c .small ++ queueNodes c .ghost)

def contents (c : Cache K V) (i : ℕ) : Option K × Option V × ℚ × ℚ :=
  (c.key i, c.value i, c.weight i, c.expiresAt i)

/-- The first loop of `invalidate`, up to where the predicate throws. -/
def selectNodes (c : Cache K V) (predicate : Option K → Option V → Except ε Bool) :
    List ℕ → Except ε (List ℕ)
  | [] => .ok []
  | i :: nodes =>
    match predicate (c.key i) (c.value i) with
    | .error e => .error e
    | .ok selected =>
      (selectNodes c predicate nodes).map fun rest => if selected then i :: rest else rest

def selects (c : Cache K V) (predicate : Option K → Option V → Except ε Bool) (i : ℕ) : Bool :=
  match predicate (c.key i) (c.value i) with
  | .ok selected => selected
  | .error _ => false

def throwsOn (c : Cache K V) (predicate : Option K → Option V → Except ε Bool) (i : ℕ) : Bool :=
  match predicate (c.key i) (c.value i) with
  | .ok _ => false
  | .error _ => true

theorem selectNodes_ok {predicate : Option K → Option V → Except ε Bool} {nodes : List ℕ}
    (h : ∀ i ∈ nodes, throwsOn c predicate i = false) :
    selectNodes c predicate nodes = .ok (nodes.filter (selects c predicate)) := by
  induction nodes with
  | nil => rfl
  | cons i nodes ih =>
    have hrest := ih fun j hj => h j (List.mem_cons_of_mem i hj)
    have hi := h i List.mem_cons_self
    unfold throwsOn at hi
    rw [selectNodes]
    cases hp : predicate (c.key i) (c.value i) with
    | error e => simp [hp] at hi
    | ok selected =>
      have hsel : selects c predicate i = selected := by simp only [selects, hp]
      simp only [hrest, Except.map, List.filter_cons, hsel]

theorem selectNodes_error {predicate : Option K → Option V → Except ε Bool} {nodes : List ℕ}
    (hi : i ∈ nodes) (h : throwsOn c predicate i = true) :
    ∃ e, selectNodes c predicate nodes = .error e := by
  induction nodes with
  | nil => simp at hi
  | cons j nodes ih =>
    rw [selectNodes]
    cases hp : predicate (c.key j) (c.value j) with
    | error e => exact ⟨e, rfl⟩
    | ok selected =>
      have hne : i ≠ j := by
        rintro rfl
        simp [throwsOn, hp] at h
      obtain ⟨e, he⟩ := ih ((List.mem_cons.mp hi).resolve_left hne)
      exact ⟨e, by simp only [he, Except.map]⟩

variable [DecidableEq K]

/-- `invalidate` with a predicate that may throw: the cache it leaves, and what it returns or
throws. -/
def invalidateWith (c : Cache K V) (predicate : Option K → Option V → Except ε Bool) :
    Cache K V × Except ε ℕ :=
  match selectNodes c predicate (walkedNodes c) with
  | .error e => (c, .error e)
  | .ok doomed =>
    let r := doomed.foldl invalidateOne (c, 0)
    (realignCandidate r.1, .ok r.2)

/-! ## The second loop -/

structure Culled (c : Cache K V) (qs : Queue → List ℕ) (doomed : List ℕ) (c' : Cache K V) : Prop where
  layout : Layout c' (Function.update qs .main ((qs .main).filter fun j => decide (j ∉ doomed)))
  config : c'.toConfig = c.toConfig
  entries : ∀ j, j ∉ doomed ∨ j ∉ qs .main → contents c' j = contents c j

/-- `_map` finds the nodes of Main. -/
theorem Layout.found_iff (h : Layout c qs) : (c.key i).bind c.map.get = some i ↔ i ∈ qs .main := by
  rw [Option.bind_eq_some_iff]
  constructor
  · rintro ⟨k, -, hget⟩
    exact (((h.shape.index .main).get_iff k i).mp hget).1
  · intro hi
    obtain ⟨k, hk⟩ := (h.shape.index .main).keyed i hi
    exact ⟨k, hk, (h.shape.index .main).get_some hi hk⟩

protected theorem Layout.invalidateOne (h : Layout c qs) (i n : ℕ) :
    Culled c qs [i] (invalidateOne (c, n) i).1 ∧ (invalidateOne (c, n) i).2 +
      ((qs .main).filter fun j => decide (j ∉ [i])).length = n + (qs .main).length := by
  unfold invalidateOne
  simp only [h.found_iff]
  by_cases hi : i ∈ qs .main
  · rw [if_pos hi]
    obtain ⟨l, r, hsplit⟩ := List.append_of_mem hi
    have hnodup := (h.shape.chains.linked .main).nodup
    rw [hsplit] at hnodup
    have hnot : ∀ j ∈ l ++ r, decide (j ∉ [i]) = true := by
      rintro j hj
      have hne : j ≠ i := by
        rintro rfl
        exact (List.nodup_middle.mp hnodup).notMem hj
      simpa using hne
    have hfilter : (qs .main).filter (fun j => decide (j ∉ [i])) = l ++ r := by
      rw [hsplit, List.filter_append, List.filter_cons_of_neg (by simp),
        List.filter_eq_self.mpr fun j hj => hnot j (List.mem_append_left r hj),
        List.filter_eq_self.mpr fun j hj => hnot j (List.mem_append_right l hj)]
    obtain ⟨cs, hdrop⟩ := dropNode_eq (abortInflight c (c.key i)) i false "invalidated"
    refine ⟨⟨?_, ?_, fun j hj => ?_⟩, ?_⟩
    · rw [hfilter]
      exact h.dropNode "invalidated" hsplit
    · exact unlinkNode_toConfig.trans abortInflight_toConfig
    · have hne : j ∉ [i] := by
        rcases hj with hj | hj
        · exact hj
        · rintro hmem
          obtain rfl : j = i := by simpa using hmem
          exact hj hi
      have hsame : SameOn [j] (abortInflight c (c.key i)).toFields
          (PowerCache.dropNode (unlinkNode (abortInflight c (c.key i)) i false) i
            "invalidated").toFields := by
        rw [hdrop]
        apply unlinkNode_sameOn
        simpa [eq_comm] using hne
      rw [abortInflight_toFields] at hsame
      obtain ⟨hkey, hvalue, hweight, hexpires⟩ := hsame j (by simp)
      simp only [contents, hkey, hvalue, hweight, hexpires]
    · rw [hfilter, hsplit, List.length_append, List.length_append, List.length_cons]
      omega
  · rw [if_neg hi]
    have hfilter : (qs .main).filter (fun j => decide (j ∉ [i])) = qs .main := by
      apply List.filter_eq_self.mpr
      intro j hj
      have hne : j ≠ i := by
        rintro rfl
        exact hi hj
      simpa using hne
    rw [hfilter]
    refine ⟨⟨?_, rfl, fun _ _ => rfl⟩, rfl⟩
    rw [hfilter, Function.update_eq_self]
    exact h

theorem Layout.invalidateLoop (h : Layout c qs) (doomed : List ℕ) (n : ℕ) :
    Culled c qs doomed (doomed.foldl invalidateOne (c, n)).1 ∧
      (doomed.foldl invalidateOne (c, n)).2 +
        ((qs .main).filter fun j => decide (j ∉ doomed)).length = n + (qs .main).length := by
  induction doomed generalizing c qs n with
  | nil =>
    refine ⟨⟨?_, rfl, fun _ _ => rfl⟩, by simp⟩
    simpa using h
  | cons i doomed ih =>
    obtain ⟨hone, hcount⟩ := h.invalidateOne i n
    rw [List.foldl_cons]
    generalize invalidateOne (c, n) i = acc at hone hcount
    obtain ⟨c₁, n₁⟩ := acc
    obtain ⟨hrest, hcount'⟩ := ih (c := c₁) hone.layout n₁
    have hfilter : ((qs .main).filter fun j => decide (j ∉ [i])).filter (fun j => decide (j ∉ doomed)) =
        (qs .main).filter fun j => decide (j ∉ i :: doomed) := by
      rw [List.filter_filter]
      apply List.filter_congr
      intro j _
      rw [← Bool.decide_and]
      apply decide_eq_decide.mpr
      rw [List.mem_singleton, List.mem_cons]
      tauto
    have hlayout := hrest.layout
    rw [update_self] at hcount' hlayout
    rw [Function.update_idem, hfilter] at hlayout
    rw [hfilter] at hcount'
    refine ⟨⟨hlayout, hrest.config.trans hone.config, fun j hj => ?_⟩, by omega⟩
    have hone' : contents c₁ j = contents c j := by
      apply hone.entries j
      refine hj.imp_left fun hj hmem => hj ?_
      simpa using Or.inl (List.mem_singleton.mp hmem)
    refine (hrest.entries j ?_).trans hone'
    rcases hj with hj | hj
    · exact Or.inl fun hmem => hj (List.mem_cons_of_mem i hmem)
    · refine Or.inr fun hmem => hj ?_
      rw [update_self] at hmem
      exact List.mem_of_mem_filter hmem

/-! ## The whole call -/

/-- The node `get` serves for a key, unless it has expired. -/
def served (c : Cache K V) (key : K) : Option ℕ := (fetchValidNode c key true false 0).2

/-- The predicate throws on no node. -/
def Quiet (c : Cache K V) (p : Option K → Option V → Except ε Bool) : Prop :=
  ∀ i ∈ walkedNodes c, throwsOn c p i = false

/-- What `invalidate` is for. -/
structure Invalidates (c : Cache K V) (p : Option K → Option V → Except ε Bool) : Prop where
  throws : ¬Quiet c p → (invalidateWith c p).1 = c ∧ ∃ e, (invalidateWith c p).2 = .error e
  gone : Quiet c p → ∀ k i, served (invalidateWith c p).1 k = some i →
    selects (invalidateWith c p).1 p i = false
  kept : Quiet c p → ∀ q, q ≠ .ghost →
    (queueNodes (invalidateWith c p).1 q).map (contents (invalidateWith c p).1) =
      ((queueNodes c q).filter fun i => !selects c p i).map (contents c)
  count : Quiet c p → (invalidateWith c p).2 =
    .ok ((queueNodes c .main ++ queueNodes c .small).filter (selects c p)).length

instance (c : Cache K V) (p : Option K → Option V → Except ε Bool) : Decidable (Quiet c p) :=
  inferInstanceAs (Decidable (∀ i ∈ walkedNodes c, _))

/-- The predicate selects nothing in Small. -/
def SmallUnselected (c : Cache K V) (p : Option K → Option V → Except ε Bool) : Prop :=
  ∀ i ∈ queueNodes c .small, selects c p i = false

section
variable {p : Option K → Option V → Except ε Bool}

section
omit [DecidableEq K]

theorem Layout.queueNodes (h : Layout c qs) (q : Queue) : queueNodes c q = qs q :=
  (h.shape.chains.linked q).walk_next (h.shape.length_le q)

theorem selects_congr (h : contents c' i = contents c i) : selects c' p i = selects c p i := by
  obtain ⟨hkey, hvalue, -⟩ := Prod.ext_iff.mp h |>.imp_right Prod.ext_iff.mp
  simp only [contents] at hkey hvalue
  simp only [selects, hkey, hvalue]

theorem not_quiet_iff : ¬Quiet c p ↔ ∃ i ∈ walkedNodes c, throwsOn c p i = true := by
  simp [Quiet]

end

theorem served_list (hpol : c.policy ≠ .s3fifo) : served c k = c.map.get k := by
  unfold served fetchValidNode
  rw [lookup_list hpol]
  cases hget : c.map.get k with
  | none => rfl
  | some i => simp only [hpol, false_and, if_false, Bool.true_eq_false]

theorem Layout.served_mem (h : Layout c qs) (hi : served c k = some i) :
    i ∈ qs .main ∨ i ∈ qs .small := by
  by_cases hpol : c.policy = .s3fifo
  · have hmem : ∀ q j, (c.toHeap.index q).get k = some j → j ∈ qs q := fun q j hget =>
      (((h.shape.index q).get_iff k j).mp hget).1
    simp only [served, fetchValidNode, lookup, hpol] at hi
    cases hget : c.map.get k with
    | some j =>
      simp only [hget] at hi
      obtain rfl : j = i := by simpa using hi
      exact Or.inl (hmem .main j hget)
    | none =>
      cases hsmall : c.smallMap.get k with
      | some j =>
        have hj : j ∈ qs .small := hmem .small j hsmall
        have hqueue : c.queue j ≠ .ghost := by
          rw [h.shape.queue .small j hj]
          decide
        simp only [hget, hsmall] at hi
        obtain rfl : j = i := by simpa [hqueue] using hi
        exact Or.inr hj
      | none =>
        cases hghost : c.ghostMap.get k with
        | none => simp [hget, hsmall, hghost] at hi
        | some j =>
          have hqueue : c.queue j = .ghost := h.shape.queue .ghost j (hmem .ghost j hghost)
          simp [hget, hsmall, hghost, hqueue] at hi
  · rw [served_list hpol] at hi
    exact Or.inl (((h.shape.index .main).get_iff k i).mp hi).1

theorem Layout.served_small (h : Layout c qs) (hpol : c.policy = .s3fifo) (hi : i ∈ qs .small)
    (hk : c.key i = some k) : served c k = some i := by
  have hget : c.map.get k = none := h.shape.get_none hi hk (by decide : Queue.main ≠ .small)
  have hsmall : c.smallMap.get k = some i := (h.shape.index .small).get_some hi hk
  have hqueue : c.queue i ≠ .ghost := by
    rw [h.shape.queue .small i hi]
    decide
  simp [served, fetchValidNode, lookup, hpol, hget, hsmall, hqueue]

/-- A call that does not throw takes what it selects out of Main. -/
protected theorem Layout.invalidateWith (h : Layout c qs) (hmem : ∀ i ∈ qs .main, i ∈ walkedNodes c)
    (hquiet : Quiet c p) :
    ∃ c' n, invalidateWith c p = (c', .ok n) ∧ c'.toConfig = c.toConfig ∧
      Layout c' (update qs .main ((qs .main).filter fun i => !selects c p i)) ∧
      (∀ i, i ∈ (qs .main).filter (fun i => !selects c p i) ∨ i ∉ qs .main →
        contents c' i = contents c i) ∧
      n = ((qs .main).filter (selects c p)).length := by
  obtain ⟨hculled, hcount⟩ := h.invalidateLoop ((walkedNodes c).filter (selects c p)) 0
  have hfilter : (qs .main).filter (fun j => decide (j ∉ (walkedNodes c).filter (selects c p))) =
      (qs .main).filter fun i => !selects c p i := by
    apply List.filter_congr
    intro i hi
    simp [hmem i hi]
  obtain ⟨hlayout, hconfig, hentries⟩ := hculled
  rw [hfilter] at hlayout hcount
  have hlength := List.length_eq_length_filter_add (l := qs .main) (selects c p)
  generalize hloop : ((walkedNodes c).filter (selects c p)).foldl invalidateOne (c, 0) = acc
    at hlayout hcount hconfig hentries
  obtain ⟨c₁, n⟩ := acc
  refine ⟨realignCandidate c₁, n, ?_, ?_, ?_, fun i hi => ?_, by omega⟩
  · simp only [invalidateWith, selectNodes_ok hquiet, hloop]
  · unfold realignCandidate
    split <;> exact hconfig
  · unfold realignCandidate
    split
    · exact hlayout
    · exact ⟨hlayout.shape.marked _ _ _ _ _ _ _, hlayout.weight, hlayout.ghostWeight⟩
  · have hsame : contents (realignCandidate c₁) i = contents c₁ i := by
      unfold realignCandidate
      split <;> rfl
    refine hsame.trans (hentries i ?_)
    rcases hi with hi | hi
    · refine Or.inl fun hdoomed => ?_
      have hselected := (List.mem_filter.mp hdoomed).2
      simp [hselected] at hi
    · exact Or.inr hi

end

namespace Routed

variable {p : Option K → Option V → Except ε Bool}

theorem invalidates_iff (h : Routed c) :
    Invalidates c p ↔ (Quiet c p → SmallUnselected c p) := by
  obtain ⟨qs, hlayout, hpol⟩ := h.layout
  have hmem : ∀ i ∈ qs .main, i ∈ walkedNodes c := by
    intro i hi
    unfold walkedNodes
    cases hp : c.policy <;> simp [hlayout.queueNodes, hi]
  have hunselected : SmallUnselected c p ↔ ∀ i ∈ qs .small, selects c p i = false := by
    rw [SmallUnselected, hlayout.queueNodes]
  have hapart : ∀ i ∈ qs .small, i ∉ qs .main := fun i hi hmain =>
    absurd (hlayout.shape.chains.apart .small .main i hi hmain) (by decide)
  rw [hunselected]
  constructor
  · intro hinv hquiet i hi
    obtain ⟨c', n, hcall, hconfig, hlayout', hsame, -⟩ := hlayout.invalidateWith hmem hquiet
    have hgone := hinv.gone hquiet
    rw [hcall] at hgone
    have hp : c.policy = .s3fifo := by
      by_contra hp
      rw [hpol hp] at hi
      cases hi
    have hcontents := hsame i (Or.inr (hapart i hi))
    obtain ⟨k, hk⟩ := (hlayout.shape.index .small).keyed i hi
    have hk' : c'.key i = some k := (congrArg Prod.fst hcontents).trans hk
    have hserved : served c' k = some i := by
      apply hlayout'.served_small
      · rw [hconfig]
        exact hp
      · rw [update_of_ne (by decide)]
        exact hi
      · exact hk'
    rw [← selects_congr hcontents]
    exact hgone k i hserved
  · intro hsmall
    refine ⟨fun hthrows => ?_, fun hquiet k i hi => ?_, fun hquiet q hq => ?_, fun hquiet => ?_⟩
    · obtain ⟨i, hi, hthrow⟩ := not_quiet_iff.mp hthrows
      obtain ⟨e, he⟩ := selectNodes_error hi hthrow
      have hcall : invalidateWith c p = (c, .error e) := by simp only [invalidateWith, he]
      rw [hcall]
      exact ⟨rfl, e, rfl⟩
    · obtain ⟨c', n, hcall, hconfig, hlayout', hsame, -⟩ := hlayout.invalidateWith hmem hquiet
      rw [hcall] at hi ⊢
      rcases hlayout'.served_mem hi with hmain | hmain
      · rw [update_self] at hmain
        rw [selects_congr (hsame i (Or.inl hmain))]
        simpa using (List.mem_filter.mp hmain).2
      · rw [update_of_ne (by decide)] at hmain
        rw [selects_congr (hsame i (Or.inr (hapart i hmain)))]
        exact hsmall hquiet i hmain
    · obtain ⟨c', n, hcall, hconfig, hlayout', hsame, -⟩ := hlayout.invalidateWith hmem hquiet
      rw [hcall, hlayout.queueNodes, hlayout'.queueNodes]
      cases q with
      | ghost => exact absurd rfl hq
      | main =>
        rw [update_self]
        exact List.map_congr_left fun i hi => hsame i (Or.inl hi)
      | small =>
        have hall : (qs .small).filter (fun i => !selects c p i) = qs .small := by
          apply List.filter_eq_self.mpr
          intro i hi
          simp [hsmall hquiet i hi]
        rw [update_of_ne (by decide), hall]
        exact List.map_congr_left fun i hi => hsame i (Or.inr (hapart i hi))
    · obtain ⟨c', n, hcall, -, -, -, hn⟩ := hlayout.invalidateWith hmem hquiet
      have hnone : (qs .small).filter (selects c p) = [] := by
        apply List.filter_eq_nil_iff.mpr
        intro i hi
        simp [hsmall hquiet i hi]
      rw [hcall, hn, hlayout.queueNodes, hlayout.queueNodes, List.filter_append, hnone,
        List.append_nil]

end Routed

/-- In every state of a run that keeps the lists, and for every predicate that does not
throw, `invalidate` takes out what it selects, and nothing else, if and only if it selects
nothing in Small; a predicate that throws leaves the cache as it was. -/
theorem invalidate_selected {o : Options K V} {c : Cache K V} (hnew : new o = .ok c)
    (cs : List (Call K V)) (hok : Meets call NodesOk c cs) :
    Always call (fun c => ∀ p : Option K → Option V → Except String Bool,
      Invalidates c p ↔ (Quiet c p → SmallUnselected c p)) c cs := by
  have hall : Always call Routed c cs :=
    always_of_meets (fun _ _ h hok => h.call hok) (Routed.new hnew) hok
  exact hall.mono fun _ h _ => h.invalidates_iff

/-- Entries of Main and of Small, one of them deleted. -/
theorem invalidate_selected_queues :
    let o : Options ℕ ℕ := { policy := .s3fifo, maxEntries := some 30 }
    let c : Cache ℕ ℕ := initial o (some 30) 30 none (some 1000)
    Always call (fun c => ∀ p : Option ℕ → Option ℕ → Except String Bool,
      Invalidates c p ↔ (Quiet c p → SmallUnselected c p)) c
      [.event (.set 1 10 none none 1), .event (.get 1 2), .event (.set 2 20 none none 3),
      .event (.set 3 30 none none 4), .event (.get 3 5), .event (.set 4 40 none none 6),
      .event (.delete 1), .event (.invalidate fun key _ => key = some 3)] := by
  intro o c
  have hnew : new o = .ok c := rfl
  refine invalidate_selected hnew _ ?_
  clear hnew
  subst o c
  decide +kernel

/-- Everything is invalidated, and the one entry of Small is still served. -/
theorem small_entry_stays :
    let o : Options ℕ ℕ := { policy := .s3fifo, maxEntries := some 10 }
    let c : Cache ℕ ℕ := initial o (some 10) 10 none (some 1000)
    new o = .ok c ∧ ¬Always call (fun c => ∀ p : Option ℕ → Option ℕ → Except String Bool,
      Invalidates c p) c [.event (.set 1 10 none none 1)] := by
  refine ⟨rfl, fun h => ?_⟩
  have hgone := (h.last fun _ _ => .ok true).gone (by decide +kernel) 1 0 (by decide +kernel)
  revert hgone
  decide +kernel

end PerformanceHelpers.PowerCache
