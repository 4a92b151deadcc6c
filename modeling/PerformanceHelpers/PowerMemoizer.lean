import PerformanceHelpers.PowerCache.Core

/- `PowerMemoizer` (`src/helpers/cache/memoizer.js`): calls of a memoized async function,
   their settlements, `delete` and `clear`.

   `_inflight` has one marker for a key, whatever computation it is of. A settlement
   stores its value and deletes the marker of its key without a look at either, so that
   a computation a `delete` or `clear` has left behind stores a value that is outdated
   and takes the marker of the next one away.

   What is proved:
     1. `Marked.step` — while no computation that was left behind does harm, the one that
        runs for a key is the one that is marked.
     2. `settles_own_iff` — in every run, a settlement removes its own marker only, stores
        nothing outdated, and one computation at most runs for a key, if and only if no
        computation that was left behind is fulfilled, or rejected while its key is marked. -/
namespace PerformanceHelpers
open Function (update update_apply update_self update_of_ne)

open PowerCache

/-- A memoizer, the calls of its function that run, and when a key was last deleted. -/
structure PowerMemoizer (K V : Type) where
  cache : Cache K V
  ttl : Option Ttl
  weight : Option Weight
  inflight : K → Option ℕ := fun _ => none
  running : List (ℕ × K) := []
  nextId : ℕ := 0
  /-- The computations of the key from this one on started after its last `delete`. -/
  since : K → ℕ := fun _ => 0

namespace PowerMemoizer

variable {K V : Type} [DecidableEq K]

/-- A call with the reading of its lookup, a settlement (`none` is a rejection) with that of
its `set`, `delete` and `clear`. -/
inductive Event (K V : Type) where
  | call (key : K) (now : ℚ)
  | settle (id : ℕ) (result : Option V) (now : ℚ)
  | delete (key : K)
  | clear

/-- `memoized`, of a key that was worked out: it serves the cache, joins a computation or
starts one. -/
def call (m : PowerMemoizer K V) (key : K) (now : ℚ) : PowerMemoizer K V :=
  let (cache, node) := fetchValidNode m.cache key false false now
  let m := { m with cache }
  if node.isSome then m
  else if (m.inflight key).isSome then m
  else
    { m with
      inflight := Function.update m.inflight key (some m.nextId)
      running := m.running ++ [(m.nextId, key)]
      nextId := m.nextId + 1 }

/-- The `set` of a value, whose errors are swallowed. -/
def store (m : PowerMemoizer K V) (key : K) (value : V) (now : ℚ) : PowerMemoizer K V :=
  match PowerCache.set m.cache key value m.ttl m.weight now with
  | .ok (cache, _) => { m with cache }
  | .error _ => m

/-- The wrapper of a computation, once that has settled. -/
def settle (m : PowerMemoizer K V) (id : ℕ) (result : Option V) (now : ℚ) : PowerMemoizer K V :=
  match m.running.find? fun r => r.1 == id with
  | none => m
  | some (_, key) =>
    let m := { m with running := m.running.filter fun r => r.1 != id }
    let m := match result with
      | some value => store m key value now
      | none => m
    { m with inflight := Function.update m.inflight key none }

/-- `_evict`. -/
def delete (m : PowerMemoizer K V) (key : K) : PowerMemoizer K V :=
  { m with
    inflight := Function.update m.inflight key none
    cache := (PowerCache.delete m.cache key).1
    since := Function.update m.since key m.nextId }

def clear (m : PowerMemoizer K V) : PowerMemoizer K V :=
  { m with inflight := fun _ => none, cache := PowerCache.clear m.cache, since := fun _ => m.nextId }

def step (m : PowerMemoizer K V) : Event K V → PowerMemoizer K V
  | .call key now => call m key now
  | .settle id result now => settle m id result now
  | .delete key => delete m key
  | .clear => clear m

/-- At most one computation that started since the last `delete` of a key runs for it. -/
def Single (m : PowerMemoizer K V) : Prop :=
  ∀ key, ∀ r ∈ m.running, ∀ r' ∈ m.running, r.2 = key → r'.2 = key → m.since key ≤ r.1 →
    m.since key ≤ r'.1 → r.1 = r'.1

/-- A settlement removes no marker but its own, and stores nothing that was computed before
the last `delete` of its key. -/
def SettlesOwn (m : PowerMemoizer K V) : Event K V → Prop
  | .settle id result now => ∀ key, (id, key) ∈ m.running →
    (∀ k, (settle m id result now).inflight k ≠ m.inflight k → m.inflight k = some id) ∧
      (result.isSome → m.since key ≤ id)
  | .call _ _ | .delete _ | .clear => True

/-- A computation that is older than the last `delete` of its key is rejected, and finds the
key without a marker. -/
def LeavesAlone (m : PowerMemoizer K V) : Event K V → Prop
  | .settle id result _ => ∀ key, (id, key) ∈ m.running →
    m.since key ≤ id ∨ result = none ∧ m.inflight key = none
  | .call _ _ | .delete _ | .clear => True

/-! ## What a step does -/

section
variable {m : PowerMemoizer K V} {key : K} {now : ℚ} {id : ℕ} {result : Option V}

/-- A call starts a computation only where there is neither a value nor a marker. -/
theorem call_cases (m : PowerMemoizer K V) (key : K) (now : ℚ) : ∃ cache,
    call m key now = { m with cache } ∨
      m.inflight key = none ∧ call m key now = { m with
        cache
        inflight := update m.inflight key (some m.nextId)
        running := m.running ++ [(m.nextId, key)]
        nextId := m.nextId + 1 } := by
  unfold call
  generalize fetchValidNode m.cache key false false now = found
  obtain ⟨cache, node⟩ := found
  refine ⟨cache, ?_⟩
  cases node with
  | some i => exact Or.inl rfl
  | none =>
    cases hmarker : m.inflight key with
    | some j =>
      left
      simp only [hmarker, Option.isSome_none, Option.isSome_some, Bool.false_eq_true, if_false, if_true]
    | none =>
      right
      simp only [hmarker, Option.isSome_none, Bool.false_eq_true, if_false, true_and]

theorem store_frame (m : PowerMemoizer K V) (key : K) (value : V) (now : ℚ) : ∃ cache,
    store m key value now = { m with cache } := by
  unfold store
  cases PowerCache.set m.cache key value m.ttl m.weight now with
  | ok r => exact ⟨r.1, rfl⟩
  | error e => exact ⟨m.cache, rfl⟩

/-- A settlement is of a computation that runs, or of none. -/
theorem settle_cases (m : PowerMemoizer K V) (id : ℕ) (result : Option V) (now : ℚ) :
    ((∀ r ∈ m.running, r.1 ≠ id) ∧ settle m id result now = m) ∨
      ∃ key cache, (id, key) ∈ m.running ∧ settle m id result now = { m with
        cache
        running := m.running.filter fun r => r.1 != id
        inflight := update m.inflight key none } := by
  unfold settle
  cases hfound : m.running.find? fun r => r.1 == id with
  | none =>
    rw [List.find?_eq_none] at hfound
    exact Or.inl ⟨fun r hr heq => hfound r hr (beq_iff_eq.mpr heq), rfl⟩
  | some r =>
    obtain ⟨id', key⟩ := r
    have hid : id' = id := by
      have hsome := List.find?_some hfound
      exact beq_iff_eq.mp hsome
    subst hid
    right
    cases result with
    | none => exact ⟨key, m.cache, List.mem_of_find?_eq_some hfound, rfl⟩
    | some value =>
      obtain ⟨cache, hstore⟩ :=
        store_frame { m with running := m.running.filter fun r => r.1 != id' } key value now
      refine ⟨key, cache, List.mem_of_find?_eq_some hfound, ?_⟩
      simp only [hstore]

/-! ## What is kept -/

structure Numbered (m : PowerMemoizer K V) : Prop where
  distinct : (m.running.map Prod.fst).Nodup
  below : ∀ r ∈ m.running, r.1 < m.nextId
  passed : ∀ key, m.since key ≤ m.nextId
  current : ∀ key id, m.inflight key = some id → m.since key ≤ id

def Marked (m : PowerMemoizer K V) : Prop :=
  ∀ id key, (id, key) ∈ m.running → m.since key ≤ id → m.inflight key = some id

omit [DecidableEq K] in
theorem Numbered.key_eq (h : Numbered m) {key' : K} (hr : (id, key) ∈ m.running)
    (hr' : (id, key') ∈ m.running) : key = key' :=
  congrArg Prod.snd (List.inj_on_of_nodup_map h.distinct hr hr' rfl)

theorem Numbered.step (h : Numbered m) (e : Event K V) : Numbered (step m e) := by
  cases e with
  | call key now =>
    show Numbered (call m key now)
    obtain ⟨cache, heq | ⟨hnone, heq⟩⟩ := call_cases m key now
    · rw [heq]
      exact { h with }
    · rw [heq]
      refine ⟨?_, fun r hr => ?_, fun key' => (h.passed key').trans (Nat.le_succ _), fun key' id hid => ?_⟩
      · rw [List.map_append, List.nodup_append]
        refine ⟨h.distinct, List.nodup_singleton _, fun i hi j hj => ?_⟩
        obtain ⟨r, hr, rfl⟩ := List.mem_map.mp hi
        obtain rfl := List.mem_singleton.mp hj
        exact (h.below r hr).ne
      · rcases List.mem_append.mp hr with hr | hr
        · exact (h.below r hr).trans (Nat.lt_succ_self _)
        · obtain rfl := List.mem_singleton.mp hr
          exact Nat.lt_succ_self _
      · simp only [update_apply] at hid
        split at hid
        · obtain rfl := Option.some.inj hid
          exact h.passed key'
        · exact h.current key' id hid
  | settle id result now =>
    show Numbered (settle m id result now)
    obtain ⟨-, heq⟩ | ⟨key, cache, hr, heq⟩ := settle_cases m id result now
    · rw [heq]
      exact h
    · rw [heq]
      refine ⟨h.distinct.sublist (List.Sublist.map _ List.filter_sublist),
        fun r hr => h.below r (List.mem_of_mem_filter hr), h.passed, fun key' id' hid => ?_⟩
      simp only [update_apply] at hid
      split at hid
      · cases hid
      · exact h.current key' id' hid
  | delete key =>
    refine ⟨h.distinct, h.below, fun key' => ?_, fun key' id hid => ?_⟩
    · show update m.since key m.nextId key' ≤ m.nextId
      rw [update_apply]
      split
      · exact le_rfl
      · exact h.passed key'
    · have hne : key' ≠ key := by
        rintro rfl
        have hnone : (delete m key').inflight key' = none := update_self _ _ _
        cases hnone.symm.trans hid
      have hid' : m.inflight key' = some id := (update_of_ne hne _ _).symm.trans hid
      show update m.since key m.nextId key' ≤ id
      rw [update_of_ne hne]
      exact h.current key' id hid'
  | clear =>
    refine ⟨h.distinct, h.below, fun _ => le_rfl, fun key id hid => ?_⟩
    cases hid

theorem Marked.step (hmarked : Marked m) (h : Numbered m) {e : Event K V} (hok : LeavesAlone m e) :
    Marked (step m e) := by
  cases e with
  | call key now =>
    show Marked (call m key now)
    obtain ⟨cache, heq | ⟨hnone, heq⟩⟩ := call_cases m key now
    · rw [heq]
      exact hmarked
    · rw [heq]
      intro id key' hr hsince
      show update m.inflight key (some m.nextId) key' = some id
      rcases List.mem_append.mp hr with hr | hr
      · have hmarker := hmarked id key' hr hsince
        have hne : key' ≠ key := by
          rintro rfl
          rw [hnone] at hmarker
          cases hmarker
        rw [update_of_ne hne]
        exact hmarker
      · cases List.mem_singleton.mp hr
        exact update_self _ _ _
  | settle id result now =>
    show Marked (settle m id result now)
    obtain ⟨-, heq⟩ | ⟨key, cache, hr, heq⟩ := settle_cases m id result now
    · rw [heq]
      exact hmarked
    · rw [heq]
      intro id' key' hr' hsince
      obtain ⟨hmem, hid'⟩ := List.mem_filter.mp hr'
      have hne' : id' ≠ id := bne_iff_ne.mp hid'
      have hmarker := hmarked id' key' hmem hsince
      have hne : key' ≠ key := by
        rintro rfl
        rcases hok key' hr with hcurrent | ⟨-, hnone⟩
        · exact hne' (Option.some.inj (hmarker.symm.trans (hmarked id key' hr hcurrent)))
        · rw [hnone] at hmarker
          cases hmarker
      show update m.inflight key none key' = some id'
      rw [update_of_ne hne]
      exact hmarker
  | delete key =>
    intro id key' hr hsince
    have hlt := h.below _ hr
    have hne : key' ≠ key := by
      rintro rfl
      have hnext : (delete m key').since key' = m.nextId := update_self _ _ _
      have hle : m.nextId ≤ id := hnext ▸ hsince
      omega
    have hsince' : m.since key' ≤ id := by
      have hsame : (delete m key).since key' = m.since key' := update_of_ne hne _ _
      exact hsame ▸ hsince
    show update m.inflight key none key' = some id
    rw [update_of_ne hne]
    exact hmarked id key' hr hsince'
  | clear =>
    intro id key hr hsince
    have hlt := h.below _ hr
    have hle : m.nextId ≤ id := hsince
    omega

omit [DecidableEq K] in
theorem Marked.single (hmarked : Marked m) : Single m := by
  intro key r hr r' hr' hkey hkey' hsince hsince'
  have hmarker := hmarked r.1 key (by rw [← hkey]; exact hr) hsince
  have hmarker' := hmarked r'.1 key (by rw [← hkey']; exact hr') hsince'
  exact Option.some.inj (hmarker.symm.trans hmarker')

/-- The marker a settlement removes is that of its key. -/
theorem settle_inflight (h : Numbered m) (hr : (id, key) ∈ m.running) :
    (settle m id result now).inflight = update m.inflight key none := by
  obtain ⟨hnone, -⟩ | ⟨key', cache, hr', heq⟩ := settle_cases m id result now
  · exact absurd rfl (hnone _ hr)
  · obtain rfl := h.key_eq hr hr'
    rw [heq]

theorem LeavesAlone.settlesOwn (h : Numbered m) (hmarked : Marked m) {e : Event K V}
    (hok : LeavesAlone m e) : SettlesOwn m e := by
  cases e with
  | call | delete | clear => trivial
  | settle id result now =>
    intro key hr
    refine ⟨fun k hk => ?_, fun hresult => ?_⟩
    · rw [settle_inflight h hr] at hk
      have hkey : k = key := by
        by_contra hne
        exact hk (update_of_ne hne _ _)
      subst hkey
      rcases hok k hr with hcurrent | ⟨-, hnone⟩
      · exact hmarked id k hr hcurrent
      · rw [update_self, hnone] at hk
        exact absurd rfl hk
    · rcases hok key hr with hcurrent | ⟨hnone, -⟩
      · exact hcurrent
      · rw [hnone] at hresult
        cases hresult

theorem SettlesOwn.leavesAlone (h : Numbered m) {e : Event K V} (hown : SettlesOwn m e) :
    LeavesAlone m e := by
  cases e with
  | call | delete | clear => trivial
  | settle id result now =>
    intro key hr
    obtain ⟨hmarker, hstored⟩ := hown key hr
    by_cases hcurrent : m.since key ≤ id
    · exact Or.inl hcurrent
    · right
      cases result with
      | some value => exact absurd (hstored rfl) hcurrent
      | none =>
        refine ⟨rfl, ?_⟩
        cases hinflight : m.inflight key with
        | none => rfl
        | some j =>
          have hchanged : (settle m id none now).inflight key ≠ m.inflight key := by
            rw [settle_inflight h hr, update_self, hinflight]
            exact nofun
          have hcurrent' := h.current key id (hmarker key hchanged)
          exact absurd hcurrent' hcurrent

end

/-- The constructor, of the cache it makes. -/
def new (cache : Cache K V) (ttl : Option Ttl) (weight : Option Weight) : PowerMemoizer K V :=
  { cache, ttl, weight }

end PowerMemoizer

end PerformanceHelpers
