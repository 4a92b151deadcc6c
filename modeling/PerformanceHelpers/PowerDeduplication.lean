import PerformanceHelpers.EntryMap
import PerformanceHelpers.Options
import PerformanceHelpers.Run

/- `PowerDeduplication` (`src/helpers/powerDeduplication.js`): the keys seen within a window, in the
   order of one map, over exact rationals.

   What a call sees is kept in a log beside the state. A key is seen when `mark` is called with it,
   and when `has` answers that it is new.

   `mark` makes room for one more key before it looks whether the key is held, and a held key keeps
   its place in the map. So the mark of a held key can put out another one while none is added, and
   the place it keeps is that of an older time.

   What is proved:
     1. `Kept.write` — where a mark of a held key is that of the newest with room left, or of the
        oldest without, the map holds the keys in the order they were last seen.
     2. `remembers_of_steady` — so in such runs, on a clock that does not go back, a key that was
        seen is a duplicate until its window ends or as many other keys were seen after it as are
        kept. -/
namespace PerformanceHelpers.PowerDeduplication

structure Deduplication (κ : Type) where
  ttl : ℚ
  maxKeys : ℚ
  keys : List (κ × ℚ)
  disposed : Bool

structure Options where
  ttl : Option ℚ := none
  maxKeys : Option ℚ := none

/-- The constructor. -/
def new {κ : Type} (o : Options) : Except String (Deduplication κ) := do
  let ttl ← assertLimitRequired o.ttl "ttl" "PowerDeduplication" 0 60000
  let maxKeys ← assertLimitRequired o.maxKeys "maxKeys" "PowerDeduplication" 0 1000
  pure { ttl, maxKeys, keys := [], disposed := false }

section
variable {κ : Type} [DecidableEq κ]

omit [DecidableEq κ] in
/-- `_prune`: from the oldest on, up to the first whose window is open. -/
def prune (d : Deduplication κ) (now : ℚ) : Deduplication κ :=
  if d.ttl ≤ 0 then d
  else { d with keys := d.keys.dropWhile fun e => decide (d.ttl ≤ now - e.2) }

omit [DecidableEq κ] in
def Full (d : Deduplication κ) : Prop := 0 < d.maxKeys ∧ d.maxKeys ≤ d.keys.length

omit [DecidableEq κ] in
instance (d : Deduplication κ) : Decidable (Full d) := inferInstanceAs (Decidable (_ ∧ _))

/-- The room that `has` and `mark` make: the first key is taken out. -/
def makeRoom (d : Deduplication κ) : Deduplication κ :=
  if Full d then
    { d with
      keys := match d.keys with
        | [] => []
        | e :: keys => EntryMap.delete e.1 (e :: keys) }
  else d

/-- What `has` and `mark` do with a key that is to be seen. -/
def write (d : Deduplication κ) (key : κ) (now : ℚ) : Deduplication κ :=
  let d := makeRoom (prune d now)
  { d with keys := EntryMap.set key now d.keys }

def has (d : Deduplication κ) (key : κ) (now : ℚ) : Deduplication κ × Bool :=
  if d.disposed = true then (d, true)
  else if (EntryMap.get key d.keys).any (fun ts => decide (now - ts < d.ttl)) = true then (d, true)
  else (write d key now, false)

def mark (d : Deduplication κ) (key : κ) (now : ℚ) : Deduplication κ :=
  if d.disposed = true then d else write d key now

def delete (d : Deduplication κ) (key : κ) : Deduplication κ × Bool :=
  if d.disposed = true then (d, false)
  else ({ d with keys := EntryMap.delete key d.keys }, (EntryMap.get key d.keys).isSome)

omit [DecidableEq κ] in
/-- `clear`, and `reset`. -/
def clear (d : Deduplication κ) : Deduplication κ := { d with keys := [] }

omit [DecidableEq κ] in
/-- `size`, and `length`. -/
def size (d : Deduplication κ) (now : ℚ) : Deduplication κ × ℕ := (prune d now, (prune d now).keys.length)

omit [DecidableEq κ] in
def dispose (d : Deduplication κ) : Deduplication κ :=
  if d.disposed = true then d else clear { d with disposed := true }

end

/-! ## What was seen -/

/-- A call, with the reading it takes. -/
inductive Event (κ : Type) where
  | has (key : κ) (now : ℚ)
  | mark (key : κ) (now : ℚ)
  | delete (key : κ)
  | clear
  | size (now : ℚ)
  | dispose

inductive Entry (κ : Type) where
  | seen (key : κ) (now : ℚ)
  | deleted (key : κ)
  deriving DecidableEq

/-- The state, what was seen since the keys were last cleared, the newest first, and the last
reading. -/
structure Trace (κ : Type) where
  dedup : Deduplication κ
  log : List (Entry κ)
  clock : ℚ

section
variable {κ : Type} [DecidableEq κ]

def Trace.step (s : Trace κ) : Event κ → Trace κ
  | .has key now =>
    ⟨(has s.dedup key now).1, if (has s.dedup key now).2 = true then s.log else .seen key now :: s.log, now⟩
  | .mark key now =>
    ⟨mark s.dedup key now, if s.dedup.disposed = true then s.log else .seen key now :: s.log, now⟩
  | .delete key =>
    ⟨(delete s.dedup key).1, if s.dedup.disposed = true then s.log else .deleted key :: s.log, s.clock⟩
  | .clear => ⟨clear s.dedup, [], s.clock⟩
  | .size now => ⟨(size s.dedup now).1, s.log, now⟩
  | .dispose => ⟨dispose s.dedup, if s.dedup.disposed = true then s.log else [], s.clock⟩

omit [DecidableEq κ] in
def Entry.key? : Entry κ → Option κ
  | .seen key _ => some key
  | .deleted _ => none

def others (key : κ) (log : List (Entry κ)) : List κ :=
  ((log.filterMap Entry.key?).filter fun k => decide (k ≠ key)).dedup

/-- A key that was seen, and not deleted after, is a duplicate while its window is open and fewer
other keys were seen after it than are kept. -/
def Remembers (s : Trace κ) : Prop :=
  ∀ key now t after before, s.clock ≤ now → s.log = after ++ .seen key t :: before → .deleted key ∉ after →
    t ≤ now → now < t + s.dedup.ttl →
    (s.dedup.maxKeys = 0 ∨ ((others key after).length : ℚ) < s.dedup.maxKeys) → (has s.dedup key now).2 = true

def Refreshes (d : Deduplication κ) (key : κ) : Prop :=
  key ∉ d.keys.map Prod.fst ∨
    if Full d then (d.keys.map Prod.fst).head? = some key else (d.keys.map Prod.fst).getLast? = some key

/-- A reading that does not go back, and a mark that refreshes its key. -/
def Steady (s : Trace κ) : Event κ → Prop
  | .has _ now | .size now => s.clock ≤ now
  | .mark key now => s.clock ≤ now ∧ (s.dedup.maxKeys = 0 ∨ Refreshes (prune s.dedup now) key)
  | .delete _ | .clear | .dispose => True

instance (d : Deduplication κ) (key : κ) : Decidable (Refreshes d key) := inferInstanceAs (Decidable (_ ∨ ite _ _ _))

instance (s : Trace κ) : ∀ e, Decidable (Steady s e)
  | .has _ _ | .size _ => inferInstanceAs (Decidable (_ ≤ _))
  | .mark _ _ => inferInstanceAs (Decidable (_ ∧ _))
  | .delete _ | .clear | .dispose => inferInstanceAs (Decidable True)

/-! ## The log, key by key -/

/-- When a key was last seen, if it was not deleted after. -/
def last (key : κ) : List (Entry κ) → Option ℚ
  | [] => none
  | .seen k t :: log => if k = key then some t else last key log
  | .deleted k :: log => if k = key then none else last key log

def since (key : κ) : List (Entry κ) → List κ
  | [] => []
  | .seen k _ :: log => if k = key then [] else k :: since key log
  | .deleted _ :: log => since key log

variable {key : κ} {log after before : List (Entry κ)} {t now : ℚ}

theorem since_subset (hlog : log = after ++ .seen key t :: before) : since key log ⊆ others key after := by
  subst hlog
  unfold others
  intro k hk
  rw [List.mem_dedup, List.mem_filter, List.mem_filterMap]
  induction after with
  | nil =>
    rw [List.nil_append, since, if_pos rfl] at hk
    exact absurd hk List.not_mem_nil
  | cons e after ih =>
    cases e with
    | seen k' t' =>
      rw [List.cons_append, since] at hk
      split at hk
      · exact absurd hk List.not_mem_nil
      · next hne =>
        rcases List.mem_cons.mp hk with rfl | hk
        · exact ⟨⟨_, List.mem_cons_self, rfl⟩, decide_eq_true hne⟩
        · obtain ⟨⟨e, he, hkey⟩, hother⟩ := ih hk
          exact ⟨⟨e, List.mem_cons_of_mem _ he, hkey⟩, hother⟩
    | deleted k' =>
      obtain ⟨⟨e, he, hkey⟩, hother⟩ := ih hk
      exact ⟨⟨e, List.mem_cons_of_mem _ he, hkey⟩, hother⟩

theorem last_isSome (hlog : log = after ++ .seen key t :: before) (hkept : .deleted key ∉ after) :
    ∃ t', last key log = some t' := by
  subst hlog
  induction after with
  | nil => exact ⟨t, by rw [List.nil_append, last, if_pos rfl]⟩
  | cons e after ih =>
    rw [List.mem_cons, not_or] at hkept
    obtain ⟨t', ht'⟩ := ih hkept.2
    cases e with
    | seen k' s =>
      rw [List.cons_append, last]
      split
      · exact ⟨s, rfl⟩
      · exact ⟨t', ht'⟩
    | deleted k' =>
      rw [List.cons_append, last, if_neg fun heq => hkept.1 (by rw [heq])]
      exact ⟨t', ht'⟩

/-! ## What the steps keep -/

/-- The map holds the keys in the order they were last seen, and a key that is missing is out of its
window or put out by others. -/
structure Kept (s : Trace κ) : Prop where
  maxKeys : 0 ≤ s.dedup.maxKeys
  nodup : (s.dedup.keys.map Prod.fst).Nodup
  found : ∀ k t, EntryMap.get k s.dedup.keys = some t → last k s.log = some t
  missing : ∀ k t, last k s.log = some t → EntryMap.get k s.dedup.keys = some t ∨ t + s.dedup.ttl ≤ s.clock ∨
    (0 < s.dedup.maxKeys ∧ s.dedup.maxKeys ≤ ((since k s.log).dedup.length : ℚ))
  order : 0 < s.dedup.ttl → 0 < s.dedup.maxKeys → s.dedup.keys.Pairwise fun a b => b.1 ∈ since a.1 s.log ∧ a.2 ≤ b.2
  past : ∀ k t, .seen k t ∈ s.log → t ≤ s.clock
  latest : ∀ k t t', last k s.log = some t' → .seen k t ∈ s.log → t ≤ t'

theorem last_mem {t' : ℚ} (h : last key log = some t') : .seen key t' ∈ log := by
  induction log with
  | nil => cases h
  | cons e log ih =>
    cases e with
    | seen k s =>
      rw [last] at h
      split at h
      · next heq =>
        cases h
        rw [heq]
        exact List.mem_cons_self
      · exact List.mem_cons_of_mem _ (ih h)
    | deleted k =>
      rw [last] at h
      split at h
      · cases h
      · exact List.mem_cons_of_mem _ (ih h)

variable {s : Trace κ}

theorem Kept.remembers (h : Kept s) : Remembers s := by
  intro key now t after before hclock hlog hkept hle hwindow hfew
  obtain ⟨t', ht'⟩ := last_isSome hlog hkept
  have hlater : t ≤ t' := by
    apply h.latest key t t' ht'
    rw [hlog]
    exact List.mem_append_right _ List.mem_cons_self
  have hopen : now < t' + s.dedup.ttl := by linarith
  unfold has
  split
  · rfl
  rcases h.missing key t' ht' with hget | hpast | ⟨hpos, hmany⟩
  · rw [hget, if_pos]
    exact decide_eq_true (by linarith)
  · linarith
  · exfalso
    rcases hfew with hzero | hfew
    · exact hpos.ne' hzero
    · have hsub : (since key s.log).dedup ⊆ others key after :=
        fun k hk => since_subset hlog (List.mem_dedup.mp hk)
      have hlength := (List.subperm_of_subset (List.nodup_dedup _) hsub).length_le
      have hcast : ((since key s.log).dedup.length : ℚ) ≤ (others key after).length := Nat.cast_le.mpr hlength
      linarith

omit [DecidableEq κ] in
theorem prune_sublist (d : Deduplication κ) (now : ℚ) : (prune d now).keys.Sublist d.keys := by
  unfold prune
  split
  · exact List.Sublist.refl _
  · exact List.dropWhile_sublist _

omit [DecidableEq κ] in
theorem prune_fields (d : Deduplication κ) (now : ℚ) :
    (prune d now).ttl = d.ttl ∧ (prune d now).maxKeys = d.maxKeys ∧ (prune d now).disposed = d.disposed := by
  unfold prune
  split <;> exact ⟨rfl, rfl, rfl⟩

/-- A key that is pruned is out of its window. -/
theorem get_prune {d : Deduplication κ} (hnodup : (d.keys.map Prod.fst).Nodup) {now t : ℚ} {k : κ}
    (hget : EntryMap.get k d.keys = some t) :
    EntryMap.get k (prune d now).keys = some t ∨ t + d.ttl ≤ now := by
  unfold prune
  split
  · exact Or.inl hget
  · have hmem := EntryMap.mem_of_get hget
    rw [← List.takeWhile_append_dropWhile (p := fun e : κ × ℚ => decide (d.ttl ≤ now - e.2)) (l := d.keys),
      List.mem_append] at hmem
    rcases hmem with hmem | hmem
    · have hout := of_decide_eq_true (List.mem_takeWhile_imp (p := fun e : κ × ℚ => decide (d.ttl ≤ now - e.2)) hmem)
      right
      dsimp only at hout
      linarith
    · left
      have hsub := (List.dropWhile_sublist (l := d.keys) fun e => decide (d.ttl ≤ now - e.2)).map Prod.fst
      exact EntryMap.get_of_mem (hnodup.sublist hsub) hmem

theorem Kept.prune (h : Kept s) (hclock : s.clock ≤ now) :
    Kept { s with dedup := prune s.dedup now, clock := now } := by
  obtain ⟨httl, hmax, -⟩ := prune_fields s.dedup now
  have hsub := prune_sublist s.dedup now
  have hnodup := h.nodup.sublist (hsub.map Prod.fst)
  refine ⟨?_, hnodup, ?_, ?_, ?_, ?_, h.latest⟩
  · rw [hmax]
    exact h.maxKeys
  · intro k t hget
    exact h.found k t (EntryMap.get_of_mem h.nodup (hsub.subset (EntryMap.mem_of_get hget)))
  · intro k t hlast
    dsimp only
    rw [httl, hmax]
    rcases h.missing k t hlast with hget | hpast | hmany
    · rcases get_prune h.nodup hget with hget | hpast
      · exact Or.inl hget
      · exact Or.inr (Or.inl hpast)
    · exact Or.inr (Or.inl (hpast.trans hclock))
    · exact Or.inr (Or.inr hmany)
  · dsimp only
    rw [httl, hmax]
    exact fun h0 h0' => (h.order h0 h0').sublist hsub
  · exact fun k t hseen => (h.past k t hseen).trans hclock

theorem makeRoom_fields (d : Deduplication κ) :
    (makeRoom d).ttl = d.ttl ∧ (makeRoom d).maxKeys = d.maxKeys ∧ (makeRoom d).disposed = d.disposed := by
  unfold makeRoom
  split <;> exact ⟨rfl, rfl, rfl⟩

theorem makeRoom_keys {d : Deduplication κ} (hnodup : (d.keys.map Prod.fst).Nodup) :
    (makeRoom d).keys = if Full d then d.keys.tail else d.keys := by
  unfold makeRoom
  split
  · cases hkeys : d.keys with
    | nil => rfl
    | cons e keys =>
      rw [hkeys] at hnodup
      exact EntryMap.delete_first hnodup
  · rfl

theorem set_refreshes {d : Deduplication κ} (now : ℚ) (hnodup : (d.keys.map Prod.fst).Nodup) (hfresh : Refreshes d key) :
    ∃ kept, EntryMap.set key now (makeRoom d).keys = kept ++ [(key, now)] ∧ kept.Sublist d.keys ∧
      key ∉ kept.map Prod.fst := by
  have hroom := makeRoom_keys hnodup
  by_cases habsent : key ∈ (makeRoom d).keys.map Prod.fst
  · by_cases hfull : Full d
    · rw [if_pos hfull] at hroom
      exfalso
      rw [hroom] at habsent
      have hheld : key ∈ d.keys.map Prod.fst := (d.keys.tail_sublist.map Prod.fst).subset habsent
      have hhead := hfresh.resolve_left (not_not.mpr hheld)
      rw [if_pos hfull] at hhead
      cases hkeys : d.keys with
      | nil =>
        rw [hkeys] at hheld
        exact absurd hheld List.not_mem_nil
      | cons e keys =>
        rw [hkeys] at hhead habsent hnodup
        have hhead : e.1 = key := by simpa using hhead
        exact (List.nodup_cons.mp hnodup).1 (hhead ▸ habsent)
    · rw [if_neg hfull] at hroom
      rw [hroom] at habsent ⊢
      have hlast := hfresh.resolve_left (not_not.mpr habsent)
      rw [if_neg hfull, List.getLast?_map] at hlast
      obtain ⟨e, he, hkey⟩ := Option.map_eq_some_iff.mp hlast
      obtain ⟨kept, hkept⟩ := List.getLast?_eq_some_iff.mp he
      have hnew : key ∉ kept.map Prod.fst := by
        rw [hkept, List.map_append, List.nodup_append] at hnodup
        exact fun hmem => hnodup.2.2 key hmem e.1 List.mem_cons_self hkey.symm
      refine ⟨kept, ?_, ?_, hnew⟩
      · rw [hkept]
        clear hkept hroom habsent hfresh he hlast
        induction kept with
        | nil => rw [List.nil_append, EntryMap.set, if_pos hkey]; rfl
        | cons e' kept ih =>
          rw [List.map_cons, List.mem_cons, not_or] at hnew
          rw [List.cons_append, EntryMap.set, if_neg fun heq => hnew.1 heq.symm, ih hnew.2]
          rfl
      · rw [hkept]
        exact List.sublist_append_left _ _
  · refine ⟨_, EntryMap.set_new habsent, ?_, habsent⟩
    rw [hroom]
    split
    · exact d.keys.tail_sublist
    · exact List.Sublist.refl _

theorem Kept.put_out (h : Kept s) (httl : 0 < s.dedup.ttl) (hfresh : Refreshes s.dedup key) {k : κ} {t : ℚ}
    (hne : key ≠ k) (hget : EntryMap.get k s.dedup.keys = some t)
    (hout : EntryMap.get k (makeRoom s.dedup).keys = none) :
    0 < s.dedup.maxKeys ∧ s.dedup.maxKeys ≤ ((key :: since k s.log).dedup.length : ℚ) := by
  have hroom := makeRoom_keys h.nodup
  by_cases hfull : Full s.dedup
  · rw [if_pos hfull] at hroom
    refine ⟨hfull.1, hfull.2.trans (Nat.cast_le.mpr ?_)⟩
    cases hkeys : s.dedup.keys with
    | nil =>
      rw [hkeys] at hget
      cases hget
    | cons e keys =>
      have hnodup := h.nodup
      have horder := h.order httl hfull.1
      rw [hkeys] at hroom hget hnodup horder
      have hhead : e.1 = k := by
        by_contra hother
        rw [EntryMap.get, if_neg hother] at hget
        rw [hroom, List.tail_cons, hget] at hout
        cases hout
      have hnew : key ∉ keys.map Prod.fst := by
        intro hmem
        have hheld : key ∈ s.dedup.keys.map Prod.fst := by
          rw [hkeys]
          exact List.mem_cons_of_mem _ hmem
        have hfirst := hfresh.resolve_left (not_not.mpr hheld)
        rw [if_pos hfull, hkeys] at hfirst
        have hfirst : e.1 = key := by simpa using hfirst
        exact hne (hfirst.symm.trans hhead)
      have hall : (key :: keys.map Prod.fst) ⊆ (key :: since k s.log).dedup := by
        intro k' hk'
        rw [List.mem_dedup]
        rcases List.mem_cons.mp hk' with rfl | hk'
        · exact List.mem_cons_self
        · obtain ⟨e', he', rfl⟩ := List.mem_map.mp hk'
          have hlater := ((List.pairwise_cons.mp horder).1 e' he').1
          rw [hhead] at hlater
          exact List.mem_cons_of_mem _ hlater
      have hdistinct : (key :: keys.map Prod.fst).Nodup :=
        List.nodup_cons.mpr ⟨hnew, (List.nodup_cons.mp hnodup).2⟩
      have hlength := (List.subperm_of_subset hdistinct hall).length_le
      simpa using hlength
  · rw [if_neg hfull] at hroom
    rw [hroom, hget] at hout
    cases hout

theorem Kept.write (h : Kept s) (hclock : s.clock ≤ now)
    (hfresh : 0 < s.dedup.ttl → 0 < s.dedup.maxKeys → Refreshes (PowerDeduplication.prune s.dedup now) key) :
    Kept ⟨write s.dedup key now, .seen key now :: s.log, now⟩ := by
  have hpruned := h.prune hclock
  obtain ⟨httl, hmax, -⟩ := prune_fields s.dedup now
  rw [← httl, ← hmax] at hfresh
  clear httl hmax
  unfold PowerDeduplication.write
  generalize PowerDeduplication.prune s.dedup now = d at hpruned hfresh
  dsimp only
  obtain ⟨httl, hmax, -⟩ := makeRoom_fields d
  have hroom := makeRoom_keys hpruned.nodup
  have hsub : (makeRoom d).keys.Sublist d.keys := by
    rw [hroom]
    split
    · exact d.keys.tail_sublist
    · exact List.Sublist.refl _
  have hkept : ∀ k t, EntryMap.get k (makeRoom d).keys = some t → EntryMap.get k d.keys = some t :=
    fun k t hget => EntryMap.get_of_mem hpruned.nodup (hsub.subset (EntryMap.mem_of_get hget))
  refine ⟨?_, EntryMap.nodup_set (hpruned.nodup.sublist (hsub.map Prod.fst)), ?_, ?_, ?_, ?_, ?_⟩
  · dsimp only
    rw [hmax]
    exact hpruned.maxKeys
  · intro k t hget
    rw [EntryMap.get_set] at hget
    rw [last]
    by_cases heq : k = key
    · rw [if_pos heq] at hget
      rw [if_pos heq.symm]
      exact hget
    · rw [if_neg heq] at hget
      rw [if_neg fun h => heq h.symm]
      exact hpruned.found k t (hkept k t hget)
  · intro k t hlast
    dsimp only at hlast ⊢
    rw [EntryMap.get_set, httl, hmax, since]
    rw [last] at hlast
    by_cases heq : key = k
    · rw [if_pos heq] at hlast
      rw [if_pos heq.symm]
      exact Or.inl hlast
    · rw [if_neg heq] at hlast
      rw [if_neg fun h => heq h.symm, if_neg heq]
      rcases hpruned.missing k t hlast with hget | hpast | ⟨hpos, hmany⟩
      · by_cases hopen : t + d.ttl ≤ now
        · exact Or.inr (Or.inl hopen)
        · cases hout : EntryMap.get k (makeRoom d).keys with
          | some t' =>
            rw [hkept k t' hout] at hget
            exact Or.inl hget
          | none =>
            have hpast : t ≤ now := hpruned.past k t (last_mem hlast)
            have hpos : 0 < d.ttl := by linarith
            by_cases hbounded : 0 < d.maxKeys
            · exact Or.inr (Or.inr (hpruned.put_out hpos (hfresh hpos hbounded) heq hget hout))
            · rw [hroom, if_neg fun hfull => hbounded hfull.1, hget] at hout
              cases hout
      · exact Or.inr (Or.inl hpast)
      · refine Or.inr (Or.inr ⟨hpos, hmany.trans (Nat.cast_le.mpr ?_)⟩)
        apply (List.subperm_of_subset (List.nodup_dedup _) _).length_le
        intro k' hk'
        rw [List.mem_dedup] at hk' ⊢
        exact List.mem_cons_of_mem _ hk'
  · intro hpos hbounded
    dsimp only at hpos hbounded ⊢
    rw [httl] at hpos
    rw [hmax] at hbounded
    obtain ⟨kept, hset, hsub, hnew⟩ := set_refreshes now hpruned.nodup (hfresh hpos hbounded)
    rw [hset, List.pairwise_append]
    refine ⟨?_, List.pairwise_singleton _ _, ?_⟩
    · apply ((hpruned.order hpos hbounded).sublist hsub).imp_of_mem
      intro a b ha _ hab
      have hne : key ≠ a.1 := fun heq => hnew (heq ▸ List.mem_map_of_mem ha)
      rw [since, if_neg hne]
      exact ⟨List.mem_cons_of_mem _ hab.1, hab.2⟩
    · intro a ha b hb
      obtain rfl := List.mem_singleton.mp hb
      have hne : key ≠ a.1 := fun heq => hnew (heq ▸ List.mem_map_of_mem ha)
      rw [since, if_neg hne]
      refine ⟨List.mem_cons_self, ?_⟩
      have hget := EntryMap.get_of_mem hpruned.nodup (hsub.subset ha)
      exact hpruned.past a.1 a.2 (last_mem (hpruned.found _ _ hget))
  · intro k t hseen
    rcases List.mem_cons.mp hseen with heq | hseen
    · cases heq
      exact le_rfl
    · exact hpruned.past k t hseen
  · intro k t t' hlast hseen
    rw [last] at hlast
    by_cases heq : key = k
    · rw [if_pos heq] at hlast
      cases hlast
      rcases List.mem_cons.mp hseen with heq | hseen
      · cases heq
        exact le_rfl
      · exact hpruned.past k t hseen
    · rw [if_neg heq] at hlast
      rcases List.mem_cons.mp hseen with hhead | hseen
      · cases hhead
        exact absurd rfl heq
      · exact hpruned.latest k t t' hlast hseen

/-- A key whose window has ended is not held any more once the keys are pruned. -/
theorem Kept.pruned (h : Kept s) (hpos : 0 < s.dedup.ttl) (hbounded : 0 < s.dedup.maxKeys)
    (hnew : (EntryMap.get key s.dedup.keys).any (fun ts => decide (now - ts < s.dedup.ttl)) ≠ true) :
    key ∉ (PowerDeduplication.prune s.dedup now).keys.map Prod.fst := by
  have hsorted := (h.order hpos hbounded).imp fun h => h.2
  unfold PowerDeduplication.prune
  rw [if_neg hpos.not_ge]
  dsimp only
  intro hmem
  obtain ⟨e, he, hkey⟩ := List.mem_map.mp hmem
  have hget := EntryMap.get_of_mem h.nodup ((List.dropWhile_sublist _).subset he)
  rw [hkey] at hget
  have hended : s.dedup.ttl ≤ now - e.2 := by
    by_contra hopen
    apply hnew
    rw [hget]
    exact decide_eq_true (not_le.mp hopen)
  cases hkeys : s.dedup.keys.dropWhile fun e => decide (s.dedup.ttl ≤ now - e.2) with
  | nil =>
    rw [hkeys] at he
    exact absurd he List.not_mem_nil
  | cons first keys =>
    have hfirst : ¬decide (s.dedup.ttl ≤ now - first.2) = true := by
      have hhead := List.head_dropWhile_not (fun e : κ × ℚ => decide (s.dedup.ttl ≤ now - e.2)) (l := s.dedup.keys)
        (by rw [hkeys]; exact List.cons_ne_nil _ _)
      simp only [hkeys, List.head_cons] at hhead
      simp [hhead]
    have hrest := hsorted.sublist (List.dropWhile_sublist fun e => decide (s.dedup.ttl ≤ now - e.2))
    rw [hkeys] at he hrest
    apply hfirst
    rw [decide_eq_true_eq]
    rcases List.mem_cons.mp he with rfl | he
    · exact hended
    · have hle := (List.pairwise_cons.mp hrest).1 e he
      linarith

theorem Kept.delete (h : Kept s) (key : κ) :
    Kept ⟨{ s.dedup with keys := EntryMap.delete key s.dedup.keys }, .deleted key :: s.log, s.clock⟩ := by
  have hsub : (EntryMap.delete key s.dedup.keys).Sublist s.dedup.keys := List.filter_sublist
  have hseen : ∀ k t, .seen k t ∈ Entry.deleted key :: s.log → .seen k t ∈ s.log := by
    intro k t hseen
    rcases List.mem_cons.mp hseen with heq | hseen
    · cases heq
    · exact hseen
  have hlast : ∀ k t, last k (.deleted key :: s.log) = some t → key ≠ k ∧ last k s.log = some t := by
    intro k t hlast
    rw [last] at hlast
    split at hlast
    · cases hlast
    · next hne => exact ⟨hne, hlast⟩
  refine ⟨h.maxKeys, h.nodup.sublist (hsub.map Prod.fst), ?_, ?_, ?_, ?_, ?_⟩
  · intro k t hget
    rw [EntryMap.get_delete] at hget
    split at hget
    · cases hget
    · next hne =>
      rw [last, if_neg fun heq => hne heq.symm]
      exact h.found k t hget
  · intro k t hget
    obtain ⟨hne, hget⟩ := hlast k t hget
    dsimp only
    rw [EntryMap.get_delete, if_neg fun heq => hne heq.symm]
    exact h.missing k t hget
  · exact fun hpos hbounded => (h.order hpos hbounded).sublist hsub
  · exact fun k t hmem => h.past k t (hseen k t hmem)
  · exact fun k t t' hget hmem => h.latest k t t' (hlast k t' hget).2 (hseen k t hmem)

theorem Kept.clear (h : Kept s) (disposed : Bool) :
    Kept (κ := κ) ⟨{ s.dedup with keys := [], disposed := disposed }, [], s.clock⟩ := by
  refine ⟨h.maxKeys, List.nodup_nil, ?_, ?_, ?_, ?_, ?_⟩
  · intro k t hget
    cases hget
  · intro k t hlast
    cases hlast
  · exact fun _ _ => List.Pairwise.nil
  · exact fun k t hseen => absurd hseen List.not_mem_nil
  · intro k t t' hlast
    cases hlast

theorem Kept.step (h : Kept s) {e : Event κ} (hok : Steady s e) : Kept (s.step e) := by
  -- a later reading alone changes nothing
  have hlater : ∀ now, s.clock ≤ now → Kept { s with clock := now } := by
    intro now hclock
    refine ⟨h.maxKeys, h.nodup, h.found, fun k t hlast => ?_, h.order, fun k t hseen => ?_, h.latest⟩
    · exact (h.missing k t hlast).imp_right (Or.imp_left fun hpast => hpast.trans hclock)
    · exact (h.past k t hseen).trans hclock
  cases e with
  | has key now =>
    have hclock : s.clock ≤ now := hok
    unfold Trace.step
    dsimp only
    by_cases hdisposed : s.dedup.disposed = true
    · have hhas : has s.dedup key now = (s.dedup, true) := if_pos hdisposed
      rw [hhas]
      exact hlater now hclock
    · by_cases hdup : (EntryMap.get key s.dedup.keys).any (fun ts => decide (now - ts < s.dedup.ttl)) = true
      · have hhas : has s.dedup key now = (s.dedup, true) := by
          unfold has
          rw [if_neg hdisposed, if_pos hdup]
        rw [hhas]
        exact hlater now hclock
      · have hhas : has s.dedup key now = (PowerDeduplication.write s.dedup key now, false) := by
          unfold has
          rw [if_neg hdisposed, if_neg hdup]
        rw [hhas]
        exact h.write hclock fun hpos hbounded => Or.inl (h.pruned hpos hbounded hdup)
  | mark key now =>
    obtain ⟨hclock, hfresh⟩ := hok
    unfold Trace.step mark
    dsimp only
    by_cases hdisposed : s.dedup.disposed = true
    · rw [if_pos hdisposed, if_pos hdisposed]
      exact hlater now hclock
    · rw [if_neg hdisposed, if_neg hdisposed]
      exact h.write hclock fun _ hbounded => hfresh.resolve_left hbounded.ne'
  | delete key =>
    unfold Trace.step PowerDeduplication.delete
    dsimp only
    by_cases hdisposed : s.dedup.disposed = true
    · rw [if_pos hdisposed, if_pos hdisposed]
      exact h
    · rw [if_neg hdisposed, if_neg hdisposed]
      exact h.delete key
  | clear => exact h.clear s.dedup.disposed
  | size now => exact h.prune hok
  | dispose =>
    unfold Trace.step dispose
    dsimp only
    by_cases hdisposed : s.dedup.disposed = true
    · rw [if_pos hdisposed, if_pos hdisposed]
      exact h
    · rw [if_neg hdisposed, if_neg hdisposed]
      exact h.clear true

theorem Kept.new {o : Options} {d : Deduplication κ} (hnew : PowerDeduplication.new o = .ok d) (clock : ℚ) :
    Kept ⟨d, [], clock⟩ := by
  unfold PowerDeduplication.new at hnew
  cases httl : assertLimitRequired o.ttl "ttl" "PowerDeduplication" 0 60000 with
  | error e =>
    rw [httl] at hnew
    cases hnew
  | ok ttl =>
    cases hmax : assertLimitRequired o.maxKeys "maxKeys" "PowerDeduplication" 0 1000 with
    | error e =>
      rw [httl, hmax] at hnew
      cases hnew
    | ok maxKeys =>
      rw [httl, hmax] at hnew
      cases hnew
      refine ⟨assertLimitRequired_ge hmax (by norm_num), List.nodup_nil, ?_, ?_, ?_, ?_, ?_⟩
      · intro k t hget
        cases hget
      · intro k t hlast
        cases hlast
      · exact fun _ _ => List.Pairwise.nil
      · exact fun k t hseen => absurd hseen List.not_mem_nil
      · intro k t t' hlast
        cases hlast

end

/-- In every run on a clock that does not go back, whose marks refresh their keys, a key that was
seen is a duplicate at every reading of its window, until as many other keys were seen after it as
are kept. -/
theorem remembers_of_steady {κ : Type} [DecidableEq κ] {o : Options} {d : Deduplication κ} (hnew : new o = .ok d)
    {clock : ℚ} {events : List (Event κ)} (hok : Meets Trace.step Steady ⟨d, [], clock⟩ events) :
    Always Trace.step Remembers ⟨d, [], clock⟩ events :=
  (always_of_meets (P := Kept) (fun _ _ h he => h.step he) (Kept.new hnew clock) hok).mono fun _ h => h.remembers

/-- Keys that are marked again, the newest with room left and the oldest without. -/
theorem remembers_three :
    let events : List (Event ℕ) := [.mark 1 0, .has 2 1, .mark 2 2, .has 3 3, .mark 1 4, .has 2 5]
    Always Trace.step Remembers ⟨⟨60000, 3, [], false⟩, [], 0⟩ events :=
  remembers_of_steady (o := { maxKeys := some 3 }) rfl (by decide +kernel)

/-- The second mark of a held key puts out the first key, while one other key was seen after it and
two are kept; and a key that is marked again keeps the place of its first mark. -/
theorem forgets :
    let s := run Trace.step ⟨⟨60000, 2, [], false⟩, [], 0⟩ [.mark 1 0, .mark 2 0, .mark 2 0]
    let s' := run Trace.step ⟨⟨60000, 3, [], false⟩, [], 0⟩ [.mark 1 0, .mark 2 0, .mark 1 0, .mark 3 0, .mark 4 0]
    (s.dedup.keys.map Prod.fst = [2] ∧ ¬Remembers s) ∧ s'.dedup.keys.map Prod.fst = [2, 3, 4] ∧ ¬Remembers s' := by
  intro s s'
  refine ⟨⟨by decide +kernel, fun h => ?_⟩, by decide +kernel, fun h => ?_⟩
  · have hdup := h 1 0 0 [.seen 2 0, .seen 2 0] [] (by decide +kernel) (by decide +kernel) (by decide)
      le_rfl (by decide +kernel) (Or.inr (by decide +kernel))
    exact absurd hdup (by decide +kernel)
  · have hdup := h 1 0 0 [.seen 4 0, .seen 3 0] [.seen 2 0, .seen 1 0] (by decide +kernel) (by decide +kernel)
      (by decide) le_rfl (by decide +kernel) (Or.inr (by decide +kernel))
    exact absurd hdup (by decide +kernel)

end PerformanceHelpers.PowerDeduplication
