import PerformanceHelpers.PowerCache.Moves
import PerformanceHelpers.PowerCache.Reference

/- An LRU cache and its reference model, side by side.

   `Refines c m xs` relates a cache to a list of entries through the nodes `xs` of
   its list. An entry leaves, moves or comes in on both sides at once; the calls
   are put together from these moves elsewhere. -/
namespace PerformanceHelpers.PowerCache

variable {K V : Type}

def Fields.entry (f : Fields K V) (i : ℕ) : Option (Entry K V) :=
  match f.key i, f.value i with
  | some key, some value =>
    some ⟨key, value, f.weight i, if f.expiresAt i = 0 then none else some (f.expiresAt i)⟩
  | _, _ => none

/-- One list in order of last use: nothing costs more than other things, and nothing is
kept out. -/
structure PlainLru (c : Config K V) : Prop where
  policy : c.policy = .lru
  missCost : c.missCost = none
  sketch : c.sketch = none
  windowSize : c.windowSize = some 0

structure Refines (c : Cache K V) (m : Recency K V) (xs : List ℕ) : Prop where
  plain : PlainLru c.toConfig
  config : c.toConfig = m.config
  rep : Rep c (onlyMain xs)
  entries : xs.map c.toFields.entry = m.entries.map some
  cursor : c.cleanupCursor.bind c.key = m.cursor

/-- Node `i` holds entry `e`, with `l` and `les` before it and `r` and `res` behind. -/
structure Here (c : Cache K V) (m : Recency K V) (xs : List ℕ) (i : ℕ) (e : Entry K V)
    (l r : List ℕ) (les res : List (Entry K V)) : Prop where
  nodes : xs = l ++ i :: r
  entries : m.entries = les ++ e :: res
  before : l.map c.toFields.entry = les.map some
  entry : c.toFields.entry i = some e
  behind : r.map c.toFields.entry = res.map some
  apart : ∀ e' ∈ les ++ res, e'.key ≠ e.key

section
variable {f : Fields K V} {c c' : Cache K V} {m : Recency K V} {xs l r : List ℕ} {i : ℕ}
  {e e' : Entry K V} {les res : List (Entry K V)} {now : ℚ}

theorem entry_eq_some : f.entry i = some e ↔ f.key i = some e.key ∧ f.value i = some e.value ∧
    f.weight i = e.weight ∧ (if f.expiresAt i = 0 then none else some (f.expiresAt i)) = e.expiresAt := by
  unfold Fields.entry
  cases f.key i <;> cases f.value i <;> cases e <;> simp

/-- The code's test of a node is the model's of its entry. -/
theorem expiredAt_eq (he : c.toFields.entry i = some e) : expiredAt c i now = e.expired now := by
  obtain ⟨-, -, -, hexp⟩ := entry_eq_some.mp he
  rw [expiredAt, Entry.expired, ← hexp]
  by_cases h0 : c.expiresAt i = 0 <;> simp [h0]

/-- The fields once node `i` is freed. -/
def Fields.clear (f : Fields K V) (i : ℕ) : Fields K V where
  key := Function.update f.key i none
  value := Function.update f.value i none
  weight := Function.update f.weight i 0
  expiresAt := Function.update f.expiresAt i 0

theorem entry_congr {f g : Fields K V} {j : ℕ} (hkey : g.key j = f.key j)
    (hvalue : g.value j = f.value j) (hweight : g.weight j = f.weight j)
    (hexp : g.expiresAt j = f.expiresAt j) : g.entry j = f.entry j := by
  simp only [Fields.entry, hkey, hvalue, hweight, hexp]

theorem entry_clear {j : ℕ} (hj : j ≠ i) : (f.clear i).entry j = f.entry j := by
  apply entry_congr <;> exact Function.update_of_ne hj _ _

theorem map_of_entries {β : Type*} {g : ℕ → β} {g' : Entry K V → β} {es : List (Entry K V)}
    (hg : ∀ i e, f.entry i = some e → g i = g' e) (h : xs.map f.entry = es.map some) :
    xs.map g = es.map g' := by
  induction xs generalizing es with
  | nil =>
    have hnil : es = [] := by simpa using h.symm
    rw [hnil]
    rfl
  | cons i xs ih =>
    obtain ⟨e, es, rfl, he, hes⟩ := List.map_eq_cons_iff.mp h.symm
    rw [List.map_cons, List.map_cons, hg i e he.symm, ih hes.symm]

/-- A test that says the same of a node and of its entry picks the same ones. -/
theorem filter_of_entries {p : ℕ → Bool} {p' : Entry K V → Bool} {es : List (Entry K V)}
    (hp : ∀ i e, f.entry i = some e → p i = p' e) (h : xs.map f.entry = es.map some) :
    (xs.filter p).map f.entry = (es.filter p').map some := by
  induction xs generalizing es with
  | nil =>
    have hnil : es = [] := by simpa using h.symm
    rw [hnil]
    rfl
  | cons i xs ih =>
    obtain ⟨e, es, rfl, he, hes⟩ := List.map_eq_cons_iff.mp h.symm
    rw [List.filter_cons, List.filter_cons, hp i e he.symm]
    cases p' e with
    | true => simpa [he] using ih hes.symm
    | false => simpa using ih hes.symm

namespace Refines

section
variable (h : Refines c m xs)
include h

theorem linked : Linked c.links c.main xs := h.rep.shape.chains.linked .main

theorem indexes : Indexes c.map c.key xs := h.rep.shape.index .main

theorem length_eq : xs.length = m.entries.length := by
  simpa using congrArg List.length h.entries

theorem size_eq : c.map.size = m.entries.length :=
  h.indexes.size_eq.trans h.length_eq

theorem totalWeight_eq : c.currentWeight = m.totalWeight := by
  have hmap : xs.map c.weight = m.entries.map Entry.weight :=
    map_of_entries (fun i e he => (entry_eq_some.mp he).2.2.1) h.entries
  rw [h.rep.weight, weightOf, Recency.totalWeight, ← hmap]
  simp [onlyMain]

theorem distinct : (m.entries.map Entry.key).Nodup := by
  have hmap : xs.map c.key = m.entries.map (some ∘ Entry.key) :=
    map_of_entries (fun i e he => (entry_eq_some.mp he).1) h.entries
  have hnd : (xs.map c.key).Nodup :=
    h.linked.nodup.map_on fun i hi j hj hk => h.indexes.inj hi hj hk
  rw [hmap, ← List.map_map] at hnd
  exact hnd.of_map some

theorem here (hxs : xs = l ++ i :: r) :
    ∃ e les res, Here c m xs i e l r les res := by
  have hentries := h.entries
  rw [hxs, List.map_append, List.map_cons] at hentries
  obtain ⟨les, res', hm, hl, hr⟩ := List.map_eq_append_iff.mp hentries.symm
  obtain ⟨e, res, rfl, he, hr⟩ := List.map_eq_cons_iff.mp hr
  refine ⟨e, les, res, hxs, hm, hl.symm, he.symm, hr.symm, fun e' he' hkey => ?_⟩
  -- another node with the key would be the same node
  have hmem : some e' ∈ (l ++ r).map c.toFields.entry := by
    rw [List.map_append, ← hl, ← hr, ← List.map_append]
    exact List.mem_map_of_mem he'
  obtain ⟨j, hj, hje⟩ := List.mem_map.mp hmem
  have hji : c.key j = c.key i :=
    (entry_eq_some.mp hje).1.trans (hkey ▸ (entry_eq_some.mp he.symm).1.symm)
  have hj' : j ∈ xs := by
    rw [hxs]
    rcases List.mem_append.mp hj with hj | hj <;> simp [hj]
  obtain rfl := h.indexes.inj hj' (by simp [hxs]) hji
  exact (List.nodup_middle.mp (hxs ▸ h.linked.nodup)).notMem hj

end

variable [DecidableEq K]

protected theorem lookup (h : Refines c m xs) (k : K) : (c.map.get k = none ∧ m.find k = none) ∨
    ∃ i e l r les res, c.map.get k = some i ∧ m.find k = some e ∧ e.key = k ∧
      Here c m xs i e l r les res := by
  cases hget : c.map.get k with
  | none =>
    refine Or.inl ⟨rfl, List.find?_eq_none.mpr fun e he => ?_⟩
    have hmem : some e ∈ xs.map c.toFields.entry := h.entries ▸ List.mem_map_of_mem he
    obtain ⟨j, hj, hje⟩ := List.mem_map.mp hmem
    have hkey := h.indexes.get_none hget hj
    rw [(entry_eq_some.mp hje).1] at hkey
    simpa using hkey
  | some i =>
    obtain ⟨hi, hk⟩ := (h.indexes.get_iff k i).mp hget
    obtain ⟨l, r, hxs⟩ := List.append_of_mem hi
    obtain ⟨e, les, res, hat⟩ := h.here hxs
    have hek : e.key = k :=
      Option.some.inj ((entry_eq_some.mp hat.entry).1.symm.trans hk)
    refine Or.inr ⟨i, e, l, r, les, res, rfl, ?_, hek, hat⟩
    rw [← hek]
    exact Recency.find_split hat.entries hat.apart

protected theorem remove (h : Refines c m xs) (hat : Here c m xs i e l r les res)
    (hrep : Rep c' (onlyMain (l ++ r))) (hconfig : c'.toConfig = c.toConfig)
    (hfields : c'.toFields = c.toFields.clear i) (hcursor : c'.cleanupCursor = cursorPast c i) :
    Refines c' (m.remove e.key) (l ++ r) := by
  have hnd := List.nodup_middle.mp (hat.nodes ▸ h.linked.nodup)
  have hold : ∀ j ∈ l ++ r, c'.toFields.entry j = c.toFields.entry j := by
    intro j hj
    rw [hfields]
    exact entry_clear fun heq => hnd.notMem (heq ▸ hj)
  have hkey : ∀ j, j ≠ i → c'.key j = c.key j := by
    intro j hj
    rw [hfields]
    exact Function.update_of_ne hj _ _
  have hki : c.key i = some e.key := (entry_eq_some.mp hat.entry).1
  have hi : i ∈ xs := by simp [hat.nodes]
  rw [Recency.remove_split hat.entries hat.apart]
  refine ⟨?_, hconfig.trans h.config, hrep, ?_, ?_⟩
  · rw [hconfig]
    exact h.plain
  · rw [List.map_congr_left hold, List.map_append, List.map_append, hat.before, hat.behind]
  · rw [hcursor, cursorPast]
    by_cases hcur : c.cleanupCursor = some i
    · -- the cursor rests on it
      have hm : m.cursor = some e.key := by rw [← h.cursor, hcur, Option.bind_some, hki]
      rw [if_pos hcur, if_pos hm, (h.linked.links l i r hat.nodes).2]
      cases r with
      | nil =>
        have : res = [] := by simpa using hat.behind.symm
        simp [this]
      | cons j r =>
        obtain ⟨e', res', rfl, hje, -⟩ := List.map_eq_cons_iff.mp hat.behind.symm
        have hj : j ≠ i := fun heq => hnd.notMem (by simp [heq])
        simp [hkey j hj, (entry_eq_some.mp hje.symm).1]
    · have hm : m.cursor ≠ some e.key := by
        rw [← h.cursor]
        cases hc : c.cleanupCursor with
        | none => simp
        | some j =>
          intro hkj
          have hj := h.rep.shape.cursor j hc
          exact hcur (hc.trans (congrArg some (h.indexes.inj hj hi (hkj.trans hki.symm))))
      rw [if_neg hcur, if_neg hm, ← h.cursor]
      cases hc : c.cleanupCursor with
      | none => rfl
      | some j =>
        have hj : j ≠ i := fun heq => hcur (heq ▸ hc)
        simp [hkey j hj]

theorem put (h : Refines c m xs) (hat : Here c m xs i e l r les res)
    (hrep : Rep c' (onlyMain (l ++ r ++ [i]))) (hconfig : c'.toConfig = c.toConfig)
    (hnew : c'.toFields.entry i = some e') (hek : e'.key = e.key)
    (hold : ∀ j, j ≠ i → c'.toFields.entry j = c.toFields.entry j) (hkey : c'.key = c.key)
    (hcursor : c'.cleanupCursor = c.cleanupCursor) : Refines c' (m.put e') (l ++ r ++ [i]) := by
  have hnd := List.nodup_middle.mp (hat.nodes ▸ h.linked.nodup)
  have hold' : ∀ j ∈ l ++ r, c'.toFields.entry j = c.toFields.entry j :=
    fun j hj => hold j fun heq => hnd.notMem (heq ▸ hj)
  refine ⟨?_, hconfig.trans h.config, hrep, ?_, ?_⟩
  · rw [hconfig]
    exact h.plain
  · simp only [Recency.put, hat.entries, hek, Recency.without_split hat.apart]
    rw [List.map_append, List.map_congr_left hold', List.map_append, hat.before, hat.behind]
    simp [hnew]
  · rw [hcursor, hkey]
    exact h.cursor

theorem insert (h : Refines c m xs) (hfresh : m.find e.key = none) (hi : i ∉ xs)
    (hrep : Rep c' (onlyMain (xs ++ [i]))) (hconfig : c'.toConfig = c.toConfig)
    (hnew : c'.toFields.entry i = some e)
    (hold : ∀ j, j ≠ i → c'.toFields.entry j = c.toFields.entry j ∧ c'.key j = c.key j)
    (hcursor : c'.cleanupCursor = c.cleanupCursor) : Refines c' (m.put e) (xs ++ [i]) := by
  have hne : ∀ j ∈ xs, j ≠ i := fun j hj heq => hi (heq ▸ hj)
  refine ⟨?_, hconfig.trans h.config, hrep, ?_, ?_⟩
  · rw [hconfig]
    exact h.plain
  · have habsent : ∀ e' ∈ m.entries, e'.key ≠ e.key := by
      simpa [Recency.find] using hfresh
    simp only [Recency.put, Recency.without_of_absent habsent]
    rw [List.map_append, List.map_congr_left fun j hj => (hold j (hne j hj)).1, h.entries]
    simp [hnew]
  · show c'.cleanupCursor.bind c'.key = m.cursor
    rw [hcursor, ← h.cursor]
    cases hc : c.cleanupCursor with
    | none => rfl
    | some j => simp [(hold j (hne j (h.rep.shape.cursor j hc))).2]

omit [DecidableEq K] in
/-- Counters, callbacks and fetches are not part of the representation. -/
theorem congr (h : Refines c m xs) (hconfig : c'.toConfig = c.toConfig)
    (hfields : c'.toFields = c.toFields) (hheap : c'.toHeap = c.toHeap)
    (hweight : c'.currentWeight = c.currentWeight) : Refines c' m xs := by
  refine ⟨?_, hconfig.trans h.config, ⟨⟨?_, ?_, ?_⟩, ?_⟩, ?_, ?_⟩
  · rw [hconfig]
    exact h.plain
  · rw [hheap, hfields]
    exact h.rep.shape
  · rw [hweight, hfields]
    exact h.rep.weight
  · rw [hfields]
    exact h.rep.ghostWeight
  · rw [hheap]
    exact h.rep.candidate
  · rw [hfields]
    exact h.entries
  · rw [hheap, hfields]
    exact h.cursor

theorem moveToTail_frame (hplain : PlainLru c.toConfig) : (moveToTail c i).toConfig = c.toConfig ∧
    (moveToTail c i).toFields = c.toFields ∧ (moveToTail c i).currentWeight = c.currentWeight ∧
      (moveToTail c i).cleanupCursor = c.cleanupCursor := by
  rw [moveToTail_lru hplain.policy (.of_none hplain.windowSize)]
  split
  · exact ⟨rfl, rfl, rfl, rfl⟩
  · exact ⟨remove_toConfig, remove_toFields, remove_currentWeight, remove_cleanupCursor⟩

section
variable (h : Refines c m xs) (hat : Here c m xs i e l r les res)
include h hat

theorem use
    (hconfig : c'.toConfig = c.toConfig) (hheap : c'.toHeap = c.toHeap) (hkey : c'.key = c.key)
    (hnew : c'.toFields.entry i = some e') (hek : e'.key = e.key)
    (hold : ∀ j, j ≠ i → c'.toFields.entry j = c.toFields.entry j ∧ c'.weight j = c.weight j)
    (hweight : c'.currentWeight = c.currentWeight - e.weight + e'.weight) :
    Refines (moveToTail c' i) (m.put e') (l ++ r ++ [i]) := by
  have hplain : PlainLru c'.toConfig := by
    rw [hconfig]
    exact h.plain
  obtain ⟨hc, hf, hw, hcur⟩ := moveToTail_frame (i := i) hplain
  have hshape : Shape c'.toHeap c'.key (onlyMain xs) [] := by
    rw [hheap, hkey]
    exact h.rep.shape
  have hwindow : PastWindow c' i := .of_none hplain.windowSize
  have hmoved := hshape.moveToTail_lru hplain.policy hwindow hat.nodes
  rw [onlyMain_update] at hmoved
  have hnd := List.nodup_middle.mp (hat.nodes ▸ h.linked.nodup)
  have hrep : Rep (moveToTail c' i) (onlyMain (l ++ r ++ [i])) := by
    have hcand : c'.evictionCandidate = (onlyMain xs .main).head? := by
      rw [hheap]
      exact h.rep.candidate
    refine ⟨⟨by rw [hf]; exact hmoved, ?_, by simp [onlyMain]⟩,
      moveToTail_lru_candidate hshape hplain.policy hcand hwindow hat.nodes⟩
    have hsum : (l ++ r).map c'.weight = (l ++ r).map c.weight :=
      List.map_congr_left fun j hj => (hold j fun heq => hnd.notMem (heq ▸ hj)).2
    have hsum' := congrArg List.sum hsum
    have hwi : c'.weight i = e'.weight := (entry_eq_some.mp hnew).2.2.1
    have hwe : c.weight i = e.weight := (entry_eq_some.mp hat.entry).2.2.1
    have hwold := h.rep.weight
    rw [hw, hweight, hwold, hf]
    simp only [weightOf, onlyMain, List.append_nil, hat.nodes, List.map_append, List.map_cons,
      List.map_nil, List.sum_append, List.sum_cons, List.sum_nil] at hsum' ⊢
    linarith
  refine h.put hat hrep (hc.trans hconfig) (by rw [hf]; exact hnew) hek
    (fun j hj => by rw [hf]; exact (hold j hj).1) (by rw [hf]; exact hkey) ?_
  rw [hcur]
  exact congrArg Heap.cleanupCursor hheap

protected theorem moveToTail :
    Refines (moveToTail c i) (m.put e) (l ++ r ++ [i]) :=
  h.use hat rfl rfl rfl hat.entry rfl (fun _ _ => ⟨rfl, rfl⟩) (by ring)

theorem unlinked {cs : Counters} {cbs : List (Callback K V)}
    :
    Refines (freeNode { unlinkNode c i false with counters := cs, log := cbs } i)
      (m.remove e.key) (l ++ r) := by
  have hrep := h.rep.unlinked (q := .main) cs cbs hat.nodes
    (Or.inl (h.rep.shape.queue .main i (by simp [onlyMain, hat.nodes]))) (by simp)
  rw [onlyMain_update] at hrep
  exact h.remove hat hrep unlinkNode_toConfig
    (congrArg (Fields.clear · i) unlinkNode_toFields) unlinkNode_cleanupCursor

theorem removeExpiredNode :
    Refines (removeExpiredNode c i) (m.remove e.key) (l ++ r) :=
  h.unlinked hat

end

theorem dropNode (reason : String) {adv : Bool} (h : Refines c m xs)
    (hat : Here c m xs i e l r les res) (hadv : adv = true → l = []) :
    Refines (dropNode (unlinkNode (abortInflight c (c.key i)) i adv) i reason)
      (m.remove e.key) (l ++ r) := by
  have hrep := h.rep.dropNode reason hat.nodes hadv
  rw [onlyMain_update] at hrep
  refine h.remove hat hrep ?_ ?_ ?_
  · exact unlinkNode_toConfig.trans abortInflight_toConfig
  · exact congrArg (Fields.clear · i) (unlinkNode_toFields.trans abortInflight_toFields)
  · exact unlinkNode_cleanupCursor.trans (by simp [cursorPast])

end Refines

end

end PerformanceHelpers.PowerCache
