import PerformanceHelpers.PowerCache.Moves

/- What a cache finds, holds, counts and calls back, without its lists.

   A call changes a `Ledger` by single turns, and each says why an entry goes: because the
   call asks for it, because it has expired, or for capacity. The last is a turn only where
   a limit is exceeded. Which node is taken is left open: that depends on the lists, and
   is no part of what is counted. -/
namespace PerformanceHelpers.PowerCache
open Function (update_of_ne update_self)

variable {K V : Type}

structure Ledger (K V : Type) where
  config : Config K V
  map : KeyMap K ℕ
  smallMap : KeyMap K ℕ
  ghostMap : KeyMap K ℕ
  smallSize : ℤ
  fields : Fields K V
  currentWeight : ℚ
  evictions : ℕ
  log : List (Callback K V)

def ledger (c : Cache K V) : Ledger K V :=
  ⟨c.toConfig, c.map, c.smallMap, c.ghostMap, c.smallSize, c.toFields, c.currentWeight,
    c.counters.evictions, c.log⟩

/-- What the fields hold once `i` is freed. -/
def Fields.free (f : Fields K V) (i : ℕ) : Fields K V where
  key := Function.update f.key i none
  value := Function.update f.value i none
  weight := Function.update f.weight i 0
  expiresAt := Function.update f.expiresAt i 0

/-- What they hold once the entry of `i` is overwritten. -/
def Fields.overwrite (f : Fields K V) (i : ℕ) (v : V) (w x : ℚ) : Fields K V where
  key := f.key
  value := Function.update f.value i (some v)
  weight := Function.update f.weight i w
  expiresAt := Function.update f.expiresAt i x

/-- What they hold once only the key of `i` is kept. -/
def Fields.keyOnly (f : Fields K V) (i : ℕ) : Fields K V where
  key := f.key
  value := Function.update f.value i none
  weight := Function.update f.weight i 0
  expiresAt := Function.update f.expiresAt i 0

namespace Ledger

def size (l : Ledger K V) : ℚ :=
  if l.config.policy = .s3fifo then l.map.size + l.smallSize else l.map.size

/-- With what is there, `size` exceeds `maxEntries` or the weight exceeds `maxWeight`. -/
def Over (l : Ledger K V) : Prop :=
  (∃ m ∈ l.config.maxEntries, m < l.size) ∨ ∃ m ∈ l.config.maxWeight, m < l.currentWeight

def SmallOver (l : Ledger K V) : Prop :=
  l.config.policy = .s3fifo ∧ l.config.smallMaxSize < l.smallSize

def find (l : Ledger K V) (k : K) : Option ℕ :=
  match l.config.policy with
  | .lru | .slru | .sieve => l.map.get k
  | .s3fifo => l.map.get k <|> (l.smallMap.get k <|> l.ghostMap.get k)

def Resident (l : Ledger K V) (k : K) : Prop := (l.map.get k).isSome ∨ (l.smallMap.get k).isSome

def Keyed (l : Ledger K V) : Prop := ∀ i k, l.fields.key i = some k → l.map.get k = some i

variable [DecidableEq K]

def store (l : Ledger K V) (i : ℕ) (k : K) (v : V) (w x : ℚ) : Ledger K V :=
  { l with
    map := if l.config.policy = .s3fifo then l.map else l.map.set k i
    smallMap := if l.config.policy = .s3fifo then l.smallMap.set k i else l.smallMap
    smallSize := if l.config.policy = .s3fifo then l.smallSize + 1 else l.smallSize
    fields := l.fields.put i k v w x
    currentWeight := l.currentWeight + w }

/-- The key of `i` leaves the indexes of the queues `qs`. -/
def unindex (l : Ledger K V) (i : ℕ) (qs : Queue → Bool) : Ledger K V :=
  { l with
    map := if qs .main then deleteKey l.map (l.fields.key i) else l.map
    smallMap := if qs .small then deleteKey l.smallMap (l.fields.key i) else l.smallMap
    ghostMap := if qs .ghost then deleteKey l.ghostMap (l.fields.key i) else l.ghostMap
    smallSize := if qs .small then l.smallSize - 1 else l.smallSize }

/-- The node `i` is taken out, with its weight, and freed. -/
def drop (l : Ledger K V) (i : ℕ) (qs : Queue → Bool) : Ledger K V :=
  { l.unindex i qs with
    fields := l.fields.free i
    currentWeight := l.currentWeight - l.fields.weight i }

/-- The node `i` goes to Main. -/
def promote (l : Ledger K V) (i : ℕ) (qs : Queue → Bool) : Ledger K V :=
  { l.unindex i qs with map := setKey (l.unindex i qs).map (l.fields.key i) i }

/-- The node `i` goes to Ghost, and its value and weight go. -/
def demote (l : Ledger K V) (i : ℕ) (qs : Queue → Bool) : Ledger K V :=
  { l.unindex i qs with
    ghostMap := setKey (l.unindex i qs).ghostMap (l.fields.key i) i
    fields := l.fields.keyOnly i
    currentWeight := l.currentWeight - l.fields.weight i }

end Ledger

def Gives : Call K V → K → V → Prop
  | .event (.set key value _ _ _), k, v => k = key ∧ v = value
  | .event (.setMany entries _ _ _), k, v => (k, v) ∈ entries
  | .getOrSet key (.value u) _ _ _ _ _, k, v | .getOrSet key (.returns u) _ _ _ _ _, k, v =>
    k = key ∧ v = u
  | _, _, _ => False

def Reads : Call K V → ℚ → Prop
  | .event (.get _ now), t | .event (.peek _ now), t | .event (.has _ _ now), t
  | .event (.touch _ _ now), t | .event (.getOrSetAsync _ _ now), t
  | .event (.cleanupExpiredUpTo _ now), t | .getOrSet _ _ _ _ _ now _, t => t = now
  | .event (.getMany keys _), t => ∃ k, (k, t) ∈ keys
  | _, _ => False

def Asks : Call K V → Ledger K V → ℕ → String → Prop
  | .event (.delete k), l, i, reason => l.find k = some i ∧ reason = "deleted"
  | .event (.evict _), _, _, reason => reason = "evicted"
  | .event (.invalidate _), _, _, reason => reason = "invalidated"
  | _, _, _, _ => False

variable [DecidableEq K]

/-- A turn of a call. With `subLimits`, S3-FIFO has a limit of its own and demotes: what it
then counts and calls back is left open. While the list is `sound`, the node that is lost
is the entry of its key. -/
inductive Turn (subLimits : Bool) (sound : Prop) (cl : Call K V) : Ledger K V → Ledger K V → Prop where
  | refuses {l : Ledger K V} {k : K} {v : V} (given : Gives cl k v) : Turn subLimits sound cl l { l with
      log := l.log ++ [.onEvict (some k) (some v) "rejected-oversized"] }
  | stores {l : Ledger K V} {k : K} {v : V} (i : ℕ) (w x : ℚ) (given : Gives cl k v)
      (fresh : l.map.get k = none) : Turn subLimits sound cl l (l.store i k v w x)
  | writes {l : Ledger K V} {k : K} {v : V} {i : ℕ} (w x : ℚ) (given : Gives cl k v)
      (found : l.find k = some i) : Turn subLimits sound cl l { l with
        fields := l.fields.overwrite i v w x
        currentWeight := l.currentWeight - l.fields.weight i + w }
  | promotes {l : Ledger K V} {k : K} {i : ℕ} (qs : Queue → Bool) (main : qs .main = false)
      (policy : l.config.policy = .s3fifo) (found : l.find k = some i) :
      Turn subLimits sound cl l (l.promote i qs)
  | touches {l : Ledger K V} {k : K} {i : ℕ} (x : ℚ)
      (touched : ∃ ttl now, cl = .event (.touch k ttl now)) (found : l.find k = some i) :
      Turn subLimits sound cl l { l with
        fields := { l.fields with expiresAt := Function.update l.fields.expiresAt i x } }
  | expires {l : Ledger K V} {i : ℕ} {now : ℚ} (qs : Queue → Bool)
      (listed : l.config.policy ≠ .s3fifo → qs .main = true) (reads : Reads cl now)
      (expired : l.fields.expiresAt i ≠ 0 ∧ l.fields.expiresAt i ≤ now) :
      Turn subLimits sound cl l { l.drop i qs with
        log := l.log ++ [.onExpire (l.fields.key i) (l.fields.value i)] }
  | takes {l : Ledger K V} {i : ℕ} {reason : String} (qs : Queue → Bool)
      (listed : l.config.policy ≠ .s3fifo → qs .main = true) (asked : Asks cl l i reason) :
      Turn subLimits sound cl l { l.drop i qs with
        evictions := l.evictions + if reason = "deleted" then 0 else 1
        log := l.log ++ [.onEvict (l.fields.key i) (l.fields.value i) reason] }
  | loses {l : Ledger K V} {i : ℕ} (qs : Queue → Bool)
      (listed : l.config.policy ≠ .s3fifo → qs .main = true)
      (limit : l.Over ∨ subLimits = true ∧ l.SmallOver)
      (held : sound → ∀ k ∈ l.fields.key i, l.map.get k = some i) :
      Turn subLimits sound cl l { l.drop i qs with
        evictions := l.evictions + 1
        log := l.log ++ [.onEvict (l.fields.key i) (l.fields.value i) "evicted"] }
  | demotes {l : Ledger K V} {i : ℕ} (qs : Queue → Bool) (more : ℕ) (cbs : List (Callback K V))
      (sub : subLimits = true) (policy : l.config.policy = .s3fifo) (limit : l.Over ∨ l.SmallOver) :
      Turn subLimits sound cl l { l.demote i qs with
        evictions := l.evictions + more, log := l.log ++ cbs }
  | clears {l : Ledger K V} (fields : Fields K V) (cleared : cl = .clear)
      (keyless : sound → ∀ i, fields.key i = none) : Turn subLimits sound cl l { l with
        map := .empty, smallMap := .empty, ghostMap := .empty, smallSize := 0, fields, currentWeight := 0 }

/-- The turns of a call, one after the other. -/
abbrev Turns (subLimits : Bool) (sound : Prop) (cl : Call K V) : Ledger K V → Ledger K V → Prop :=
  Relation.ReflTransGen (Turn subLimits sound cl)

section
variable {subLimits : Bool} {sound : Prop} {cl : Call K V} {l l' : Ledger K V} {i : ℕ} {k : K}

theorem Turn.config (h : Turn subLimits sound cl l l') : l'.config = l.config := by
  cases h <;> rfl

/-- What a node leaves behind: the other keys keep their nodes. -/
theorem Ledger.Keyed.drop (h : l.Keyed) (qs : Queue → Bool) (hqs : qs .main = true) :
    (l.drop i qs).Keyed := by
  intro j k hj
  have hji : j ≠ i := by
    rintro rfl
    simp [Ledger.drop, Fields.free] at hj
  have hj' : l.fields.key j = some k := by
    simpa [Ledger.drop, Fields.free, hji] using hj
  have hget := h j k hj'
  simp only [Ledger.drop, Ledger.unindex, hqs, if_true]
  cases hi : l.fields.key i with
  | none => exact hget
  | some k' =>
    have hne : k ≠ k' := by
      rintro rfl
      exact hji (Option.some.inj (hget.symm.trans (h i k hi)))
    simpa [deleteKey, KeyMap.delete, update_of_ne hne] using hget

theorem Ledger.Keyed.store {v : V} {w x : ℚ} (h : l.Keyed) (hpol : l.config.policy ≠ .s3fifo)
    (hfresh : l.map.get k = none) : (l.store i k v w x).Keyed := by
  intro j k' hj
  simp only [Ledger.store, if_neg hpol, KeyMap.set]
  by_cases hji : j = i
  · subst hji
    simp only [Ledger.store, Fields.put, update_self, Option.some.injEq] at hj
    rw [← hj, update_self]
  · have hj' : l.fields.key j = some k' := by
      simpa [Ledger.store, Fields.put, hji] using hj
    have hget := h j k' hj'
    have hne : k' ≠ k := by
      rintro rfl
      rw [hfresh] at hget
      cases hget
    rw [update_of_ne hne]
    exact hget

theorem Turn.keyed (h : Turn subLimits sound cl l l') (hsound : sound)
    (hpol : l.config.policy ≠ .s3fifo) (hkeyed : l.Keyed) : l'.Keyed := by
  cases h with
  | refuses given => exact hkeyed
  | stores i w x given fresh => exact hkeyed.store hpol fresh
  | writes w x given found => exact hkeyed
  | promotes qs main policy found => exact absurd policy hpol
  | touches x touched found => exact hkeyed
  | expires qs listed reads expired | takes qs listed asked => exact hkeyed.drop qs (listed hpol)
  | loses qs listed limit held => exact hkeyed.drop qs (listed hpol)
  | demotes qs more cbs sub policy limit => exact absurd policy hpol
  | clears fields cleared keyless =>
    intro i k hi
    rw [keyless hsound i] at hi
    cases hi

theorem Turn.evictions_le (h : Turn subLimits sound cl l l') : l.evictions ≤ l'.evictions := by
  cases h with
  | refuses | stores | writes | promotes | touches | expires | clears => exact le_rfl
  | takes qs listed asked => exact Nat.le_add_right _ _
  | loses qs listed limit held => exact Nat.le_succ _
  | demotes qs more cbs sub policy limit => exact Nat.le_add_right _ _

theorem Ledger.Resident.store {k' : K} {v : V} {w x : ℚ} (h : l.Resident k) :
    (l.store i k' v w x).Resident k := by
  have hset : ∀ m : KeyMap K ℕ, (m.get k).isSome → ((m.set k' i).get k).isSome := by
    intro m hm
    by_cases hne : k = k'
    · simp [KeyMap.set, hne]
    · simpa [KeyMap.set, update_of_ne hne] using hm
  unfold Ledger.Resident Ledger.store
  by_cases hpol : l.config.policy = .s3fifo
  · simp only [if_pos hpol]
    exact h.imp_right (hset _)
  · simp only [if_neg hpol]
    exact h.imp_left (hset _)

theorem Ledger.Resident.promote {qs : Queue → Bool} (hmain : qs .main = false) (h : l.Resident k) :
    (l.promote i qs).Resident k := by
  simp only [Ledger.Resident, Ledger.promote, Ledger.unindex, hmain, Bool.false_eq_true, if_false]
  cases hi : l.fields.key i with
  | none =>
    simp only [setKey, deleteKey, Option.elim_none, ite_self]
    exact h
  | some k' =>
    by_cases hne : k = k'
    · exact Or.inl (by simp [setKey, KeyMap.set, hne])
    · refine h.imp (fun hk => ?_) fun hk => ?_
      · simpa [setKey, KeyMap.set, update_of_ne hne] using hk
      · split
        · simpa [deleteKey, KeyMap.delete, update_of_ne hne] using hk
        · exact hk

/-- Without limits of its own, a turn that is not asked for leaves every key its entry, or
counts an eviction. -/
protected theorem Turn.resident (h : Turn false sound cl l l') (hreads : ∀ now, ¬Reads cl now)
    (hasks : ∀ l i reason, ¬Asks cl l i reason) (hclear : cl ≠ .clear) (hk : l.Resident k) :
    l'.Resident k ∨ l.evictions < l'.evictions := by
  cases h with
  | refuses given => exact Or.inl hk
  | stores i w x given fresh => exact Or.inl hk.store
  | writes w x given found => exact Or.inl hk
  | promotes qs main policy found => exact Or.inl (hk.promote main)
  | touches x touched found => exact Or.inl hk
  | expires qs listed reads expired => exact absurd reads (hreads _)
  | takes qs listed asked => exact absurd asked (hasks _ _ _)
  | loses qs listed limit held => exact Or.inr (Nat.lt_succ_self _)
  | demotes qs more cbs sub policy limit => cases sub
  | clears fields cleared keyless => exact absurd cleared hclear

protected theorem Turns.resident (h : Turns false sound cl l l') (hreads : ∀ now, ¬Reads cl now)
    (hasks : ∀ l i reason, ¬Asks cl l i reason) (hclear : cl ≠ .clear) (hk : l.Resident k) :
    l'.Resident k ∨ l.evictions < l'.evictions := by
  have hall : l.evictions ≤ l'.evictions ∧ (l'.Resident k ∨ l.evictions < l'.evictions) := by
    induction h with
    | refl => exact ⟨le_rfl, Or.inl hk⟩
    | tail _ hturn ih =>
      obtain ⟨hle, hcase⟩ := ih
      have hle' := hturn.evictions_le
      refine ⟨hle.trans hle', ?_⟩
      rcases hcase with hstays | hlt
      · exact (hturn.resident hreads hasks hclear hstays).imp_right hle.trans_lt
      · exact Or.inr (hlt.trans_le hle')
  exact hall.2

end

end PerformanceHelpers.PowerCache
