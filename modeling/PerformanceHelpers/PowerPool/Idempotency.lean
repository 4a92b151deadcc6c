import Mathlib
import PerformanceHelpers.Run

/- The idempotency ledger of `PowerPool` (`src/helpers/powerPool.js`,
   `postMessage` and the `_idempotency*` methods).

   The ledger is a `Map`, a list of entries in insertion order. What
   `_postMessageInner` answers is the environment's; it may post again before it
   answers, so a post is two events, and `posting` holds the posts whose inner
   call is running. A reading of the clock is never below the one before it
   (`max`). Keys are what `String()` makes of them.

   What is proved:
     1. `mem_sweep` — a sweep removes exactly the expired entries of its slice,
        the 32 entries from the cursor on.
     2. `answers_iff_reached` — over a whole run, every post is answered as its
        key's window says (refused until a settlement is `ttlMs` old, accepted
        from then on), and every expired entry of a state is gone after the posts
        that follow, exactly when the sweeps reach what they have to: the key
        posted if it has expired, and the entry at one of the posts
        (`expired_key_refused`). -/
namespace PerformanceHelpers.PowerPool

/-- A ledger entry: `settledAt` is `null` while the post is in flight. -/
structure LedgerEntry where
  key : String
  settledAt : Option ℚ
  deriving DecidableEq

structure Ledger where
  ttlMs : ℚ
  ttl_pos : 0 < ttlMs
  entries : List LedgerEntry
  cursor : Option String
  lookups : ℕ
  duplicatesInFlight : ℕ
  duplicatesSettled : ℕ
  expired : ℕ
  /-- The last clock reading. -/
  clock : ℚ
  /-- Posts whose inner call is running, innermost first: key and reading. -/
  posting : List (Option String × ℚ)

def Ledger.empty (ttlMs : ℚ) (h : 0 < ttlMs) : Ledger := ⟨ttlMs, h, [], none, 0, 0, 0, 0, 0, []⟩

/-- The constructor's ledger: none unless `idempotencyTtlMs` is positive. -/
def Ledger.new (idempotencyTtlMs : ℚ) : Option Ledger :=
  if h : 0 < idempotencyTtlMs then some (.empty idempotencyTtlMs h) else none

/-- `ledger.get(k)`. -/
def Ledger.get (l : Ledger) (k : String) : Option LedgerEntry := l.entries.find? (·.key == k)

/-- Settled at least `ttl` ago. -/
def LedgerEntry.expired (ttl now : ℚ) (e : LedgerEntry) : Bool :=
  match e.settledAt with
  | none => false
  | some s => decide (ttl ≤ now - s)

/-- `DEFAULT_IDEMPOTENCY_SWEEP_BATCH`. -/
def sweepBatch : ℕ := 32

/-- The entries before the cursor, which a sweep skips, and those from it on. A
cursor whose key is gone skips none. -/
def Ledger.split (l : Ledger) : List LedgerEntry × List LedgerEntry :=
  match l.cursor.filter fun c => (l.get c).isSome with
  | none => ([], l.entries)
  | some c => (l.entries.takeWhile (·.key != c), l.entries.dropWhile (·.key != c))

/-- The loop of `_idempotencySweep` from the cursor on, with `left` entries of the
batch still to examine: what it keeps, where the next sweep resumes, how many
it deletes. (The cap cannot be hit before the cursor is seen, since only entries
from the cursor on count towards it.) -/
def sweepLoop (ttl now : ℚ) : ℕ → Option String → List LedgerEntry →
    List LedgerEntry × Option String × ℕ
  | 0, resume, es => (es, resume, 0)
  | _ + 1, resume, [] => ([], resume, 0)
  | left + 1, resume, e :: es =>
    if e.expired ttl now then
      let r := sweepLoop ttl now left resume es
      (r.1, r.2.1, r.2.2 + 1)
    else
      let r := sweepLoop ttl now left (some e.key) es
      (e :: r.1, r.2)

/-- `_idempotencySweep`. -/
def sweep (l : Ledger) (now : ℚ) : Ledger :=
  if l.entries.isEmpty then { l with cursor := none }
  else
    let r := sweepLoop l.ttlMs now sweepBatch none l.split.2
    { l with entries := l.split.1 ++ r.1, cursor := r.2.1, expired := l.expired + r.2.2 }

def countDuplicate (l : Ledger) (e : LedgerEntry) : Ledger :=
  if e.settledAt = none then { l with duplicatesInFlight := l.duplicatesInFlight + 1 }
  else { l with duplicatesSettled := l.duplicatesSettled + 1 }

/-- `_idempotencyBegin`: `false` when the key is already claimed. -/
def begin (l : Ledger) (key : Option String) (now : ℚ) : Ledger × Bool :=
  let l := { l with lookups := l.lookups + 1 }
  match key with
  | none => (l, true)
  | some k =>
    let l := sweep l now
    match l.get k with
    | some e => (countDuplicate l e, false)
    | none => ({ l with entries := l.entries ++ [⟨k, none⟩] }, true)

/-- `_idempotencySettle`. -/
def settle (l : Ledger) (key : Option String) (now : ℚ) : Ledger :=
  match key with
  | none => l
  | some k =>
    { l with entries := l.entries.map fun e => if e.key = k then ⟨k, some now⟩ else e }

/-- `_idempotencyRelease`. -/
def release (l : Ledger) (key : Option String) : Ledger :=
  match key with
  | none => l
  | some k => { l with entries := l.entries.filter fun e => e.key != k }

/-- What `_postMessageInner` does: accept the task, answer `false`, or throw. -/
inductive Inner where
  | accepted
  | refused
  | threw
  deriving DecidableEq, Repr

/-- The calls a run is made of: `postMessage` with a key up to its inner call, at
a reading of the clock, and what the innermost inner call comes to. -/
inductive LedgerEvent where
  | post (key : Option String) (reading : ℚ)
  | inner (result : Inner)

/-- The reading a post takes. -/
def Ledger.now (l : Ledger) (reading : ℚ) : ℚ := max l.clock reading

/-- `postMessage`, up to its inner call. -/
def post (l : Ledger) (key : Option String) (reading : ℚ) : Ledger :=
  let now := l.now reading
  let (l', ok) := begin { l with clock := now } key now
  if ok then { l' with posting := (key, now) :: l'.posting } else l'

/-- `postMessage`, after its inner call. -/
def finish (l : Ledger) (result : Inner) : Ledger :=
  match l.posting with
  | [] => l
  | (key, now) :: posting =>
    let l := { l with posting }
    match result with
    | .accepted => settle l key now
    | .refused | .threw => release l key

def ledgerStep (l : Ledger) : LedgerEvent → Ledger
  | .post key reading => post l key reading
  | .inner result => finish l result

/-! ## What a sweep does -/

def Ledger.slice (l : Ledger) : List LedgerEntry := l.split.2.take sweepBatch

theorem split_append (l : Ledger) : l.split.1 ++ l.split.2 = l.entries := by
  unfold Ledger.split
  split
  · rfl
  · exact List.takeWhile_append_dropWhile

theorem sweepLoop_kept (ttl now : ℚ) : ∀ (left : ℕ) (resume : Option String)
    (es : List LedgerEntry), (sweepLoop ttl now left resume es).1 =
      (es.take left).filter (fun e => !e.expired ttl now) ++ es.drop left := by
  intro left
  induction left with
  | zero => intro resume es; simp [sweepLoop]
  | succ left ih =>
    intro resume es
    cases es with
    | nil => rfl
    | cons e es =>
      unfold sweepLoop
      cases he : e.expired ttl now with
      | true => simp [he, ih]
      | false => simp [he, ih]

theorem sweep_entries (l : Ledger) (now : ℚ) :
    (sweep l now).entries = l.split.1 ++
      (l.slice.filter (fun e => !e.expired l.ttlMs now) ++ l.split.2.drop sweepBatch) := by
  unfold sweep
  split
  · rename_i h
    have hnil : l.entries = [] := List.isEmpty_iff.mp h
    have h12 := split_append l
    rw [hnil, List.append_eq_nil_iff] at h12
    simp [hnil, h12.1, h12.2, Ledger.slice]
  · simp only [sweepLoop_kept, Ledger.slice]

def Ledger.KeysNodup (l : Ledger) : Prop := (l.entries.map (·.key)).Nodup

variable {l : Ledger} {now : ℚ} {e : LedgerEntry}

theorem mem_sweep (hl : l.KeysNodup) :
    e ∈ (sweep l now).entries ↔
      e ∈ l.entries ∧ ¬ (e ∈ l.slice ∧ e.expired l.ttlMs now = true) := by
  have hsplit : l.entries = l.split.1 ++ (l.slice ++ l.split.2.drop sweepBatch) := by
    rw [Ledger.slice, List.take_append_drop, split_append]
  have hnd : (l.split.1 ++ (l.slice ++ l.split.2.drop sweepBatch)).Nodup :=
    hsplit ▸ List.Nodup.of_map _ hl
  rw [List.nodup_append, List.nodup_append] at hnd
  obtain ⟨-, ⟨-, -, hdrop⟩, hbefore⟩ := hnd
  rw [sweep_entries, hsplit]
  simp only [List.mem_append, List.mem_filter]
  constructor
  · rintro (h | ⟨h, hx⟩ | h)
    · refine ⟨Or.inl h, fun hs => ?_⟩
      exact hbefore e h e (List.mem_append_left _ hs.1) rfl
    · exact ⟨Or.inr (Or.inl h), fun hs => by simp [hs.2] at hx⟩
    · exact ⟨Or.inr (Or.inr h), fun hs => hdrop e hs.1 e h rfl⟩
  · rintro ⟨h | h | h, hx⟩
    · exact Or.inl h
    · refine Or.inr (Or.inl ⟨h, ?_⟩)
      simpa [h] using hx
    · exact Or.inr (Or.inr h)

@[simp] theorem sweep_clock (l : Ledger) (now : ℚ) : (sweep l now).clock = l.clock := by
  unfold sweep
  split <;> rfl

@[simp] theorem sweep_ttlMs (l : Ledger) (now : ℚ) : (sweep l now).ttlMs = l.ttlMs := by
  unfold sweep
  split <;> rfl

@[simp] theorem sweep_posting (l : Ledger) (now : ℚ) : (sweep l now).posting = l.posting := by
  unfold sweep
  split <;> rfl

theorem countDuplicate_same (l : Ledger) (e : LedgerEntry) :
    (countDuplicate l e).entries = l.entries ∧ (countDuplicate l e).posting = l.posting ∧
      (countDuplicate l e).clock = l.clock ∧ (countDuplicate l e).ttlMs = l.ttlMs ∧
      (countDuplicate l e).cursor = l.cursor := by
  unfold countDuplicate
  split <;> exact ⟨rfl, rfl, rfl, rfl, rfl⟩

theorem sweep_sublist (l : Ledger) (now : ℚ) : (sweep l now).entries.Sublist l.entries := by
  have hsplit : l.entries = l.split.1 ++ (l.slice ++ l.split.2.drop sweepBatch) := by
    rw [Ledger.slice, List.take_append_drop, split_append]
  rw [sweep_entries, hsplit]
  exact ((List.filter_sublist).append (List.Sublist.refl _)).append_left _

theorem KeysNodup.of_sweep (hl : l.KeysNodup) (now : ℚ) : (sweep l now).KeysNodup :=
  List.Nodup.sublist ((sweep_sublist l now).map _) hl

/-! ## The window of a key -/

/-- The ledger, with the time each key was last settled at (a history, not a field
of the source). -/
structure Watch where
  ledger : Ledger
  settled : String → Option ℚ

def settledBy (w : Watch) : LedgerEvent → String → Option ℚ
  | .inner .accepted =>
    match w.ledger.posting with
    | (some k, now) :: _ => Function.update w.settled k (some now)
    | _ => w.settled
  | _ => w.settled

def watchStep (w : Watch) (e : LedgerEvent) : Watch := ⟨ledgerStep w.ledger e, settledBy w e⟩

/-- What a post should be told: yes, unless its key is in flight, or was settled
less than `ttlMs` ago. -/
def windowAnswer (w : Watch) (key : Option String) (now : ℚ) : Bool :=
  match key with
  | none => true
  | some k =>
    (w.ledger.posting.all fun p => p.1 != some k) &&
      (w.settled k).all fun s => decide (s + w.ledger.ttlMs ≤ now)

/-- Every post is told what it should be. -/
def Answered (w : Watch) : LedgerEvent → Prop
  | .post key reading =>
    (begin { w.ledger with clock := w.ledger.now reading } key (w.ledger.now reading)).2 =
      windowAnswer w key (w.ledger.now reading)
  | .inner _ => True

instance : ∀ (w : Watch) (e : LedgerEvent), Decidable (Answered w e)
  | w, .post key reading =>
    inferInstanceAs (Decidable
      ((begin { w.ledger with clock := w.ledger.now reading } key (w.ledger.now reading)).2 =
        windowAnswer w key (w.ledger.now reading)))
  | _, .inner _ => isTrue trivial

/-- A post whose key has expired in the ledger has it in the slice of its sweep. -/
def Reached (w : Watch) : LedgerEvent → Prop
  | .post (some k) reading => ∀ e ∈ w.ledger.entries, e.key = k →
      e.expired w.ledger.ttlMs (w.ledger.now reading) = true → e ∈ w.ledger.slice
  | _ => True

instance : ∀ (w : Watch) (e : LedgerEvent), Decidable (Reached w e)
  | w, .post (some k) reading =>
    inferInstanceAs (Decidable (∀ e ∈ w.ledger.entries, e.key = k →
      e.expired w.ledger.ttlMs (w.ledger.now reading) = true → e ∈ w.ledger.slice))
  | _, .post none _ => isTrue trivial
  | _, .inner _ => isTrue trivial

structure Tracks (w : Watch) : Prop where
  keys_nodup : w.ledger.KeysNodup
  settled_mem : ∀ k s, ⟨k, some s⟩ ∈ w.ledger.entries → w.settled k = some s
  in_flight : ∀ k, ⟨k, none⟩ ∈ w.ledger.entries ↔ ∃ u, (some k, u) ∈ w.ledger.posting
  posting_nodup : (w.ledger.posting.filterMap (·.1)).Nodup
  posting_le : ∀ p ∈ w.ledger.posting, p.2 ≤ w.ledger.clock
  /-- A settlement that is no longer in the ledger has expired. -/
  forgotten : ∀ k s, w.settled k = some s →
    ⟨k, some s⟩ ∈ w.ledger.entries ∨ s + w.ledger.ttlMs ≤ w.ledger.clock

theorem expired_iff {ttl s : ℚ} {k : String} :
    LedgerEntry.expired ttl now ⟨k, some s⟩ = true ↔ s + ttl ≤ now := by
  simp only [LedgerEntry.expired, decide_eq_true_eq]
  constructor <;> intro h <;> linarith

theorem not_expired_inFlight {ttl : ℚ} {k : String} :
    LedgerEntry.expired ttl now ⟨k, none⟩ = false := rfl

theorem entry_unique (hl : l.KeysNodup) {e e' : LedgerEntry} (he : e ∈ l.entries)
    (he' : e' ∈ l.entries) (hk : e.key = e'.key) : e = e' :=
  List.inj_on_of_nodup_map hl he he' hk

theorem get_isNone_iff {k : String} : (l.get k).isNone = true ↔ ∀ e ∈ l.entries, e.key ≠ k := by
  simp [Ledger.get]

/-- The ledger a post's `_idempotencyBegin` looks its key up in. -/
def swept (l : Ledger) (reading : ℚ) : Ledger :=
  sweep { l with clock := l.now reading, lookups := l.lookups + 1 } (l.now reading)

theorem begin_ok (l : Ledger) (k : String) (reading : ℚ) :
    (begin { l with clock := l.now reading } (some k) (l.now reading)).2 =
      ((swept l reading).get k).isNone := by
  unfold begin swept
  simp only
  cases (sweep _ _).get k <;> rfl

theorem mem_swept (hl : l.KeysNodup) {reading : ℚ} :
    e ∈ (swept l reading).entries ↔
      e ∈ l.entries ∧ ¬ (e ∈ l.slice ∧ e.expired l.ttlMs (l.now reading) = true) :=
  mem_sweep (l := { l with clock := l.now reading, lookups := l.lookups + 1 }) hl

structure Refused (l l' : Ledger) (reading : ℚ) : Prop where
  entries : l'.entries = (swept l reading).entries
  posting : l'.posting = l.posting
  clock : l'.clock = l.now reading
  ttlMs : l'.ttlMs = l.ttlMs
  cursor : l'.cursor = (swept l reading).cursor

structure Claimed (l l' : Ledger) (k : String) (reading : ℚ) : Prop where
  entries : l'.entries = (swept l reading).entries ++ [⟨k, none⟩]
  posting : l'.posting = (some k, l.now reading) :: l.posting
  clock : l'.clock = l.now reading
  ttlMs : l'.ttlMs = l.ttlMs
  cursor : l'.cursor = (swept l reading).cursor

theorem post_spec (l : Ledger) (k : String) (reading : ℚ) :
    (∃ e ∈ (swept l reading).entries, e.key = k) ∧ Refused l (post l (some k) reading) reading ∨
      (∀ e ∈ (swept l reading).entries, e.key ≠ k) ∧
        Claimed l (post l (some k) reading) k reading := by
  have hkeep : (swept l reading).posting = l.posting ∧ (swept l reading).clock = l.now reading ∧
      (swept l reading).ttlMs = l.ttlMs := by simp [swept]
  cases hget : (swept l reading).get k with
  | some e =>
    refine Or.inl ⟨⟨e, List.mem_of_find?_eq_some hget, ?_⟩, ?_⟩
    · simpa using List.find?_some hget
    · have hpost : post l (some k) reading = countDuplicate (swept l reading) e := by
        unfold swept at hget
        simp only [post, begin, hget]
        rfl
      obtain ⟨h1, h2, h3, h4, h5⟩ := countDuplicate_same (swept l reading) e
      rw [hpost]
      exact ⟨h1, h2.trans hkeep.1, h3.trans hkeep.2.1, h4.trans hkeep.2.2, h5⟩
  | none =>
    have hnone := get_isNone_iff.mp (Option.isNone_iff_eq_none.mpr hget)
    refine Or.inr ⟨hnone, ?_⟩
    have hpost : post l (some k) reading =
        { swept l reading with
          entries := (swept l reading).entries ++ [⟨k, none⟩]
          posting := (some k, l.now reading) :: (swept l reading).posting } := by
      unfold swept at hget
      simp only [post, begin, hget]
      rfl
    rw [hpost]
    exact ⟨rfl, by rw [hkeep.1], hkeep.2.1, hkeep.2.2, rfl⟩

theorem post_none (l : Ledger) (reading : ℚ) :
    post l none reading = { l with
      clock := l.now reading, lookups := l.lookups + 1
      posting := (none, l.now reading) :: l.posting } := rfl

section Steps
variable {w : Watch}

theorem le_now (l : Ledger) (reading : ℚ) : l.clock ≤ l.now reading := le_max_left _ _

theorem windowAnswer_iff (w : Watch) (k : String) (now : ℚ) :
    windowAnswer w (some k) now = true ↔ (∀ u, (some k, u) ∉ w.ledger.posting) ∧
      ∀ s, w.settled k = some s → s + w.ledger.ttlMs ≤ now := by
  simp only [windowAnswer, Bool.and_eq_true, List.all_eq_true, bne_iff_ne, Option.all_eq_true,
    decide_eq_true_eq]
  refine and_congr ⟨fun h u hu => h _ hu rfl, fun h p hp heq => ?_⟩ Iff.rfl
  exact h p.2 (heq ▸ hp)

theorem answered_iff (h : Tracks w) (e : LedgerEvent) : Answered w e ↔ Reached w e := by
  cases e with
  | inner result => exact Iff.rfl
  | post key reading =>
    cases key with
    | none => exact iff_of_true rfl trivial
    | some k =>
      simp only [Answered, begin_ok, Reached]
      rw [Bool.eq_iff_iff, get_isNone_iff, windowAnswer_iff]
      constructor
      · rintro hans ⟨k', settledAt⟩ hmem rfl hexp
        -- otherwise the window is over and the entry is still there
        by_contra hslice
        cases settledAt with
        | none => simp [not_expired_inFlight] at hexp
        | some s =>
          refine (hans.mpr ⟨fun u hu => ?_, fun s' hs' => ?_⟩) ⟨k', some s⟩ ?_ rfl
          · have hnone := (h.in_flight k').mpr ⟨u, hu⟩
            exact absurd (entry_unique h.keys_nodup hmem hnone rfl) (by simp)
          · rw [h.settled_mem k' s hmem] at hs'
            cases hs'
            exact expired_iff.mp hexp
          · exact (mem_swept h.keys_nodup).mpr ⟨hmem, fun hx => hslice hx.1⟩
      · intro hreach
        constructor
        · intro hfree
          refine ⟨fun u hu => ?_, fun s hs => ?_⟩
          · have hnone := (h.in_flight k).mpr ⟨u, hu⟩
            refine hfree ⟨k, none⟩ ((mem_swept h.keys_nodup).mpr ⟨hnone, fun hx => ?_⟩) rfl
            exact absurd hx.2 (by simp [not_expired_inFlight])
          · rcases h.forgotten k s hs with hmem | hold
            · by_contra hyoung
              refine hfree ⟨k, some s⟩ ((mem_swept h.keys_nodup).mpr ⟨hmem, fun hx => ?_⟩) rfl
              exact hyoung (expired_iff.mp hx.2)
            · exact hold.trans (le_now _ _)
        · rintro ⟨hflight, hwindow⟩ ⟨k', settledAt⟩ hmem rfl
          obtain ⟨hmem, hkept⟩ := (mem_swept h.keys_nodup).mp hmem
          cases settledAt with
          | none =>
            obtain ⟨u, hu⟩ := (h.in_flight k').mp hmem
            exact hflight u hu
          | some s =>
            have hexp : LedgerEntry.expired w.ledger.ttlMs (w.ledger.now reading) ⟨k', some s⟩ = true :=
              expired_iff.mpr (hwindow s (h.settled_mem k' s hmem))
            exact hkept ⟨hreach _ hmem rfl hexp, hexp⟩

theorem mem_settle {k : String} {u : ℚ} :
    e ∈ (settle l (some k) u).entries ↔
      (e ∈ l.entries ∧ e.key ≠ k) ∨ (e = ⟨k, some u⟩ ∧ ∃ e' ∈ l.entries, e'.key = k) := by
  simp only [settle, List.mem_map]
  constructor
  · rintro ⟨e', he', rfl⟩
    split
    · exact Or.inr ⟨rfl, e', he', ‹_›⟩
    · exact Or.inl ⟨he', ‹_›⟩
  · rintro (⟨he, hk⟩ | ⟨rfl, e', he', hk⟩)
    · exact ⟨e, he, if_neg hk⟩
    · exact ⟨e', he', if_pos hk⟩

theorem mem_release {k : String} :
    e ∈ (release l (some k)).entries ↔ e ∈ l.entries ∧ e.key ≠ k := by
  simp [release]

theorem settle_keys (l : Ledger) (k : String) (u : ℚ) :
    (settle l (some k) u).entries.map (·.key) = l.entries.map (·.key) := by
  simp only [settle, List.map_map]
  refine List.map_congr_left fun e _ => ?_
  simp only [Function.comp_apply]
  split <;> simp_all

theorem Tracks.of_post (h : Tracks w) (key : Option String) (reading : ℚ) :
    Tracks ⟨post w.ledger key reading, w.settled⟩ := by
  have hle := le_now w.ledger reading
  cases key with
  | none =>
    rw [post_none]
    refine ⟨h.keys_nodup, h.settled_mem, fun k => ?_, h.posting_nodup, ?_, ?_⟩
    · exact (h.in_flight k).trans ⟨fun ⟨u, hu⟩ => ⟨u, List.mem_cons_of_mem _ hu⟩,
        fun ⟨u, hu⟩ => ⟨u, by simpa using hu⟩⟩
    · intro p hp
      rcases List.mem_cons.mp hp with rfl | hp
      · exact le_refl _
      · exact (h.posting_le p hp).trans hle
    · exact fun k s hs => (h.forgotten k s hs).imp_right fun hold => hold.trans hle
  | some k =>
    -- what the sweep alone keeps
    have hforgot : ∀ k' s, w.settled k' = some s → ⟨k', some s⟩ ∈ (swept w.ledger reading).entries ∨
        s + w.ledger.ttlMs ≤ w.ledger.now reading := by
      intro k' s hs
      by_cases hexp : s + w.ledger.ttlMs ≤ w.ledger.now reading
      · exact Or.inr hexp
      · rcases h.forgotten k' s hs with hmem | hold
        · refine Or.inl ((mem_swept h.keys_nodup).mpr ⟨hmem, fun hx => hexp ?_⟩)
          exact expired_iff.mp hx.2
        · exact Or.inr (hold.trans hle)
    have hflight : ∀ k', ⟨k', none⟩ ∈ (swept w.ledger reading).entries ↔
        ∃ u, (some k', u) ∈ w.ledger.posting := by
      intro k'
      rw [mem_swept h.keys_nodup, ← h.in_flight k']
      exact and_iff_left (by simp [not_expired_inFlight])
    have hnd : (swept w.ledger reading).KeysNodup :=
      KeysNodup.of_sweep (l := { w.ledger with
        clock := w.ledger.now reading, lookups := w.ledger.lookups + 1 }) h.keys_nodup _
    have hold : ∀ k' s, ⟨k', some s⟩ ∈ (swept w.ledger reading).entries → w.settled k' = some s :=
      fun k' s hs => h.settled_mem k' s ((mem_swept h.keys_nodup).mp hs).1
    rcases post_spec w.ledger k reading with ⟨-, hr⟩ | ⟨hfree, hc⟩
    · refine ⟨?_, ?_, fun k' => ?_, ?_, ?_, ?_⟩
      · show (List.map _ _).Nodup
        rw [hr.entries]
        exact hnd
      · simpa only [hr.entries] using hold
      · simpa only [hr.entries, hr.posting] using hflight k'
      · simpa only [hr.posting] using h.posting_nodup
      · simp only [hr.posting, hr.clock]
        exact fun p hp => (h.posting_le p hp).trans hle
      · simpa only [hr.entries, hr.clock, hr.ttlMs] using hforgot
    · refine ⟨?_, ?_, fun k' => ?_, ?_, ?_, ?_⟩
      · show (List.map _ _).Nodup
        rw [hc.entries, List.map_append]
        refine List.Nodup.append hnd (by simp) ?_
        intro x hx hx'
        obtain ⟨e, he, rfl⟩ := List.mem_map.mp hx
        exact hfree e he (by simpa using hx')
      · simp only [hc.entries, List.mem_append, List.mem_singleton]
        intro k' s hs
        exact hold k' s (hs.resolve_right (by simp))
      · rw [hc.entries, hc.posting, List.mem_append, List.mem_singleton, hflight k']
        simp only [List.mem_cons, LedgerEntry.mk.injEq, and_true, Prod.mk.injEq,
          Option.some.injEq]
        constructor
        · rintro (⟨u, hu⟩ | rfl)
          · exact ⟨u, Or.inr hu⟩
          · exact ⟨_, Or.inl ⟨rfl, rfl⟩⟩
        · rintro ⟨u, ⟨rfl, -⟩ | hu⟩
          · exact Or.inr rfl
          · exact Or.inl ⟨u, hu⟩
      · rw [hc.posting]
        refine List.nodup_cons.mpr ⟨fun hk => ?_, h.posting_nodup⟩
        obtain ⟨⟨k', u⟩, hu, hk'⟩ := List.mem_filterMap.mp hk
        simp only at hk'
        subst hk'
        exact hfree _ ((hflight k).mpr ⟨u, hu⟩) rfl
      · simp only [hc.posting, hc.clock, List.mem_cons]
        rintro p (rfl | hp)
        · exact le_refl _
        · exact (h.posting_le p hp).trans hle
      · simp only [hc.entries, hc.clock, hc.ttlMs, List.mem_append]
        exact fun k' s hs => (hforgot k' s hs).imp_left Or.inl

/-- The innermost post ends: its key is the only one whose entry changes. -/
theorem Tracks.of_finish (h : Tracks w) (result : Inner) :
    Tracks (watchStep w (.inner result)) := by
  cases hp : w.ledger.posting with
  | nil =>
    have hw : watchStep w (.inner result) = w := by
      cases result <;> simp [watchStep, ledgerStep, settledBy, finish, hp]
    rw [hw]
    exact h
  | cons p rest =>
    obtain ⟨key, u⟩ := p
    have hnd := h.posting_nodup
    have hle := h.posting_le
    have hfl := h.in_flight
    simp only [hp] at hnd hle hfl
    have hrest : ∀ p ∈ rest, p.2 ≤ w.ledger.clock := fun p hp => hle p (List.mem_cons_of_mem _ hp)
    cases key with
    | none =>
      have hl : ledgerStep w.ledger (.inner result) = { w.ledger with posting := rest } := by
        cases result <;> simp [ledgerStep, finish, hp, settle, release]
      have hs : settledBy w (.inner result) = w.settled := by
        cases result <;> simp [settledBy, hp]
      unfold watchStep
      rw [hl, hs]
      refine ⟨h.keys_nodup, h.settled_mem, fun k => ?_, hnd, hrest, h.forgotten⟩
      exact (hfl k).trans ⟨fun ⟨v, hv⟩ => ⟨v, by simpa using hv⟩,
        fun ⟨v, hv⟩ => ⟨v, List.mem_cons_of_mem _ hv⟩⟩
    | some k =>
      have hnd : k ∉ rest.filterMap (·.1) ∧ (rest.filterMap (·.1)).Nodup := List.nodup_cons.mp hnd
      have hkrest : ∀ v, (some k, v) ∉ rest := fun v hv =>
        hnd.1 (List.mem_filterMap.mpr ⟨_, hv, rfl⟩)
      have hknone : ⟨k, none⟩ ∈ w.ledger.entries := (hfl k).mpr ⟨u, List.mem_cons_self⟩
      have hflight : ∀ k', k' ≠ k → (⟨k', none⟩ ∈ w.ledger.entries ↔ ∃ v, (some k', v) ∈ rest) := by
        intro k' hk'
        refine (hfl k').trans ⟨fun ⟨v, hv⟩ => ⟨v, ?_⟩, fun ⟨v, hv⟩ => ⟨v, List.mem_cons_of_mem _ hv⟩⟩
        rcases List.mem_cons.mp hv with heq | hv
        · exact absurd (Option.some.inj (Prod.mk.inj heq).1) hk'
        · exact hv
      have hreleased : Tracks ⟨release { w.ledger with posting := rest } (some k), w.settled⟩ := by
        refine ⟨?_, fun k' s hks => ?_, fun k' => ?_, hnd.2, hrest, fun k' s hks => ?_⟩
        · exact List.Nodup.sublist (List.filter_sublist.map _) h.keys_nodup
        · exact h.settled_mem k' s (mem_release.mp hks).1
        · rw [mem_release]
          constructor
          · rintro ⟨hmem, hk'⟩
            exact (hflight k' hk').mp hmem
          · rintro ⟨v, hv⟩
            have hk' : k' ≠ k := fun heq => hkrest v (heq ▸ hv)
            exact ⟨(hflight k' hk').mpr ⟨v, hv⟩, hk'⟩
        · rcases h.forgotten k' s hks with hmem | hold
          · refine Or.inl (mem_release.mpr ⟨hmem, fun (heq : k' = k) => ?_⟩)
            exact absurd (entry_unique h.keys_nodup hmem hknone heq) (by simp)
          · exact Or.inr hold
      cases result with
      | accepted =>
        have hl : ledgerStep w.ledger (.inner .accepted) =
            settle { w.ledger with posting := rest } (some k) u := by
          simp [ledgerStep, finish, hp]
        have hs : settledBy w (.inner .accepted) = Function.update w.settled k (some u) := by
          simp [settledBy, hp]
        unfold watchStep
        rw [hl, hs]
        refine ⟨?_, fun k' s hks => ?_, fun k' => ?_, hnd.2, hrest, fun k' s hks => ?_⟩
        · show (List.map _ _).Nodup
          rw [settle_keys]
          exact h.keys_nodup
        · rcases mem_settle.mp hks with ⟨hmem, hk'⟩ | ⟨heq, -⟩
          · exact (Function.update_of_ne (show k' ≠ k from hk') _ _).trans (h.settled_mem k' s hmem)
          · obtain ⟨rfl, hsu⟩ := LedgerEntry.mk.inj heq
            exact (Function.update_self _ _ _).trans hsu.symm
        · rw [mem_settle]
          constructor
          · rintro (⟨hmem, hk'⟩ | ⟨heq, -⟩)
            · exact (hflight k' hk').mp hmem
            · simp at heq
          · rintro ⟨v, hv⟩
            have hk' : k' ≠ k := fun heq => hkrest v (heq ▸ hv)
            exact Or.inl ⟨(hflight k' hk').mpr ⟨v, hv⟩, hk'⟩
        · by_cases hk' : k' = k
          · subst hk'
            have hsu : some u = some s :=
              (Function.update_self (f := w.settled) k' (some u)).symm.trans hks
            cases hsu
            exact Or.inl (mem_settle.mpr (Or.inr ⟨rfl, _, hknone, rfl⟩))
          · have hks : w.settled k' = some s :=
              (Function.update_of_ne hk' _ _).symm.trans hks
            exact (h.forgotten k' s hks).imp_left fun hmem => mem_settle.mpr (Or.inl ⟨hmem, hk'⟩)
      | refused =>
        have hw : watchStep w (.inner .refused) =
            ⟨release { w.ledger with posting := rest } (some k), w.settled⟩ := by
          simp [watchStep, ledgerStep, settledBy, finish, hp]
        exact hw ▸ hreleased
      | threw =>
        have hw : watchStep w (.inner .threw) =
            ⟨release { w.ledger with posting := rest } (some k), w.settled⟩ := by
          simp [watchStep, ledgerStep, settledBy, finish, hp]
        exact hw ▸ hreleased

theorem Tracks.of_step (h : Tracks w) (e : LedgerEvent) : Tracks (watchStep w e) := by
  cases e with
  | post key reading => exact h.of_post key reading
  | inner result => exact h.of_finish result

/-! ## When an expired entry goes -/

def Passes (e : LedgerEntry) (w : Watch) : LedgerEvent → Prop
  | .post (some _) _ => e ∉ w.ledger.slice
  | _ => True

structure Gone (k : String) (s : ℚ) (w : Watch) : Prop where
  notMem : ⟨k, some s⟩ ∉ w.ledger.entries
  old : s + w.ledger.ttlMs ≤ w.ledger.clock
  later : ∀ u, (some k, u) ∈ w.ledger.posting → s < u

variable {k : String} {s : ℚ}

@[simp] theorem settle_same (l : Ledger) (key : Option String) (u : ℚ) :
    (settle l key u).clock = l.clock ∧ (settle l key u).ttlMs = l.ttlMs ∧
      (settle l key u).posting = l.posting := by
  cases key <;> exact ⟨rfl, rfl, rfl⟩

@[simp] theorem release_same (l : Ledger) (key : Option String) :
    (release l key).clock = l.clock ∧ (release l key).ttlMs = l.ttlMs ∧
      (release l key).posting = l.posting := by
  cases key <;> exact ⟨rfl, rfl, rfl⟩

theorem finish_same (l : Ledger) (result : Inner) :
    (finish l result).clock = l.clock ∧ (finish l result).ttlMs = l.ttlMs ∧
      (finish l result).posting = l.posting.tail := by
  unfold finish
  split
  · rename_i hp
    simp [hp]
  · rename_i hp
    cases result <;> simp [hp]

/-- The end of a post changes the entry of its own key only. -/
theorem mem_finish_of_ne (hk : ∀ u, l.posting.head? ≠ some (some e.key, u)) (result : Inner) :
    e ∈ (finish l result).entries ↔ e ∈ l.entries := by
  unfold finish
  split
  · exact Iff.rfl
  · rename_i key u rest hp
    cases key with
    | none => cases result <;> rfl
    | some k =>
      have hne : e.key ≠ k := fun heq => hk u (by rw [hp, heq]; rfl)
      cases result with
      | accepted =>
        refine mem_settle.trans ⟨fun hor => ?_, fun he => Or.inl ⟨he, hne⟩⟩
        rcases hor with ⟨he, -⟩ | ⟨rfl, -⟩
        · exact he
        · exact absurd rfl hne
      | refused | threw => exact mem_release.trans (and_iff_left hne)

theorem expired_mem_step (h : Tracks w) (hmem : ⟨k, some s⟩ ∈ w.ledger.entries)
    (hold : s + w.ledger.ttlMs ≤ w.ledger.clock) (e : LedgerEvent) :
    ⟨k, some s⟩ ∈ (watchStep w e).ledger.entries ↔ Passes ⟨k, some s⟩ w e := by
  cases e with
  | inner result =>
    refine (mem_finish_of_ne (fun u hu => ?_) result).trans (iff_of_true hmem trivial)
    have hflight := (h.in_flight k).mpr ⟨u, List.mem_of_head? hu⟩
    exact absurd (entry_unique h.keys_nodup hmem hflight rfl) (by simp)
  | post key reading =>
    cases key with
    | none => exact iff_of_true hmem trivial
    | some k' =>
      have hswept : ⟨k, some s⟩ ∈ (swept w.ledger reading).entries ↔
          (⟨k, some s⟩ : LedgerEntry) ∉ w.ledger.slice := by
        rw [mem_swept h.keys_nodup, expired_iff]
        have hnow := hold.trans (le_now w.ledger reading)
        simp [hmem, hnow]
      refine Iff.trans ?_ hswept
      show ⟨k, some s⟩ ∈ (post w.ledger (some k') reading).entries ↔ _
      rcases post_spec w.ledger k' reading with ⟨-, hr⟩ | ⟨-, hc⟩
      · rw [hr.entries]
      · rw [hc.entries]
        simp

theorem clock_le_step (w : Watch) (e : LedgerEvent) :
    w.ledger.clock ≤ (watchStep w e).ledger.clock ∧
      (watchStep w e).ledger.ttlMs = w.ledger.ttlMs := by
  cases e with
  | inner result =>
    obtain ⟨hclock, httl, -⟩ := finish_same w.ledger result
    exact ⟨hclock.ge, httl⟩
  | post key reading =>
    have hle := le_now w.ledger reading
    cases key with
    | none => exact ⟨hle, rfl⟩
    | some k =>
      rcases post_spec w.ledger k reading with ⟨-, hr⟩ | ⟨-, hc⟩
      · exact ⟨hle.trans hr.clock.ge, hr.ttlMs⟩
      · exact ⟨hle.trans hc.clock.ge, hc.ttlMs⟩

theorem posting_step {u : ℚ} {e : LedgerEvent}
    (hu : (some k, u) ∈ (watchStep w e).ledger.posting) :
    (some k, u) ∈ w.ledger.posting ∨ w.ledger.clock ≤ u := by
  cases e with
  | inner result =>
    exact Or.inl (List.mem_of_mem_tail ((finish_same w.ledger result).2.2 ▸ hu))
  | post key reading =>
    cases key with
    | none => exact Or.inl ((List.mem_cons.mp hu).resolve_left (by simp))
    | some k' =>
      rcases post_spec w.ledger k' reading with ⟨-, hr⟩ | ⟨-, hc⟩
      · exact Or.inl (hr.posting ▸ hu)
      · have hu : (some k, u) ∈ (some k', w.ledger.now reading) :: w.ledger.posting :=
          hc.posting ▸ hu
        rcases List.mem_cons.mp hu with heq | hu
        · exact Or.inr ((Prod.mk.inj heq).2 ▸ le_now w.ledger reading)
        · exact Or.inl hu

theorem Gone.of_step (h : Tracks w) (hg : Gone k s w) (e : LedgerEvent) :
    Gone k s (watchStep w e) := by
  obtain ⟨hclock, httl⟩ := clock_le_step w e
  have hold : s + (watchStep w e).ledger.ttlMs ≤ (watchStep w e).ledger.clock := by
    rw [httl]
    exact hg.old.trans hclock
  have hlater : ∀ u, w.ledger.clock ≤ u → s < u := by
    intro u hu
    have hpos := w.ledger.ttl_pos
    have hs := hg.old
    linarith
  cases e with
  | inner result =>
    refine ⟨?_, hold, fun u hu => ?_⟩
    · by_cases hk : ∃ u, w.ledger.posting.head? = some (some k, u)
      · obtain ⟨u, hu⟩ := hk
        have hlt := hg.later u (List.mem_of_head? hu)
        show ⟨k, some s⟩ ∉ (finish w.ledger result).entries
        unfold finish
        cases hp : w.ledger.posting with
        | nil => rw [hp] at hu; cases hu
        | cons p rest =>
          rw [hp] at hu
          cases hu
          cases result with
          | accepted =>
            intro hmem
            rcases mem_settle.mp hmem with ⟨-, hne⟩ | ⟨heq, -⟩
            · exact hne rfl
            · simp only [LedgerEntry.mk.injEq, Option.some.injEq, true_and] at heq
              exact hlt.ne heq
          | refused | threw => exact fun hmem => (mem_release.mp hmem).2 rfl
      · exact fun hmem => hg.notMem
          ((mem_finish_of_ne (fun u hu => hk ⟨u, hu⟩) result).mp hmem)
    · rcases posting_step hu with hu | hu
      · exact hg.later u hu
      · exact hlater u hu
  | post key reading =>
    have hnotMem : ⟨k, some s⟩ ∉ (watchStep w (.post key reading)).ledger.entries := by
      cases key with
      | none => exact hg.notMem
      | some k' =>
        have hswept : ⟨k, some s⟩ ∉ (swept w.ledger reading).entries :=
          fun hmem => hg.notMem ((mem_swept h.keys_nodup).mp hmem).1
        show _ ∉ (post w.ledger (some k') reading).entries
        rcases post_spec w.ledger k' reading with ⟨-, hr⟩ | ⟨-, hc⟩
        · rwa [hr.entries]
        · rw [hc.entries]
          simpa using hswept
    refine ⟨hnotMem, hold, fun u hu => ?_⟩
    rcases posting_step hu with hu | hu
    · exact hg.later u hu
    · exact hlater u hu

theorem expired_mem_run (h : Tracks w) (hmem : ⟨k, some s⟩ ∈ w.ledger.entries)
    (hold : s + w.ledger.ttlMs ≤ w.ledger.clock) (es : List LedgerEvent) :
    ⟨k, some s⟩ ∈ (run watchStep w es).ledger.entries ↔
      Meets watchStep (Passes ⟨k, some s⟩) w es := by
  induction es generalizing w with
  | nil => exact iff_of_true hmem trivial
  | cons e es ih =>
    have hstep := expired_mem_step h hmem hold e
    have hnext := clock_le_step w e
    have hold' : s + (watchStep w e).ledger.ttlMs ≤ (watchStep w e).ledger.clock := by
      rw [hnext.2]
      exact hold.trans hnext.1
    by_cases hmem' : ⟨k, some s⟩ ∈ (watchStep w e).ledger.entries
    · exact (ih (h.of_step e) hmem' hold').trans (and_iff_right (hstep.mp hmem')).symm
    · refine iff_of_false ?_ fun hpass => hmem' (hstep.mpr hpass.1)
      -- gone, and no post in flight brings it back
      have hgone : Gone k s (watchStep w e) := by
        refine ⟨hmem', hold', fun u hu => ?_⟩
        have hfree : ∀ v, (some k, v) ∉ w.ledger.posting := fun v hv =>
          absurd (entry_unique h.keys_nodup hmem ((h.in_flight k).mpr ⟨v, hv⟩) rfl) (by simp)
        rcases posting_step hu with hu | hu
        · exact absurd hu (hfree u)
        · have hpos := w.ledger.ttl_pos
          linarith
      exact (always_of_step (P := fun w => Tracks w ∧ Gone k s w)
        (fun w e hw => ⟨hw.1.of_step e, hw.2.of_step hw.1 e⟩)
        ⟨h.of_step e, hgone⟩ es).last.2.notMem

/-! ## Runs -/

def keyedPosts (es : List LedgerEvent) : ℕ :=
  es.countP fun e => match e with
    | .post (some _) _ => true
    | _ => false

/-- An entry that has expired in some state of the run is gone once `sweepPosts` of
that state's ledger have posted with a key. -/
def Drains (sweepPosts : Ledger → ℕ) (w : Watch) (es : List LedgerEvent) : Prop :=
  ∀ pre mid post, es = pre ++ mid ++ post → ∀ k s,
    ⟨k, some s⟩ ∈ (run watchStep w pre).ledger.entries →
    s + w.ledger.ttlMs ≤ (run watchStep w pre).ledger.clock →
    sweepPosts (run watchStep w pre).ledger ≤ keyedPosts mid →
    ⟨k, some s⟩ ∉ (run watchStep w (pre ++ mid)).ledger.entries

/-- One of those posts has the entry in the slice of its sweep. -/
def Sweeps (sweepPosts : Ledger → ℕ) (w : Watch) (es : List LedgerEvent) : Prop :=
  ∀ pre mid post, es = pre ++ mid ++ post → ∀ k s,
    ⟨k, some s⟩ ∈ (run watchStep w pre).ledger.entries →
    s + w.ledger.ttlMs ≤ (run watchStep w pre).ledger.clock →
    sweepPosts (run watchStep w pre).ledger ≤ keyedPosts mid →
    ¬ Meets watchStep (Passes ⟨k, some s⟩) (run watchStep w pre) mid

theorem Tracks.of_run (h : Tracks w) (es : List LedgerEvent) : Tracks (run watchStep w es) :=
  have hall : Always watchStep Tracks w es :=
    always_of_step (P := Tracks) (fun _ e h => Tracks.of_step h e) h es
  hall.last

theorem ttlMs_run (w : Watch) (es : List LedgerEvent) :
    (run watchStep w es).ledger.ttlMs = w.ledger.ttlMs := by
  induction es generalizing w with
  | nil => rfl
  | cons e es ih => exact (ih (watchStep w e)).trans (clock_le_step w e).2

theorem drains_iff_sweeps (h : Tracks w) (sweepPosts : Ledger → ℕ) (es : List LedgerEvent) :
    Drains sweepPosts w es ↔ Sweeps sweepPosts w es := by
  unfold Drains Sweeps
  refine forall_congr' fun pre => forall_congr' fun mid => forall_congr' fun post =>
    forall_congr' fun hes => forall_congr' fun k => forall_congr' fun s => ?_
  refine forall_congr' fun hmem => forall_congr' fun hold => forall_congr' fun _ => ?_
  rw [run_append]
  rw [← ttlMs_run w pre] at hold
  exact not_congr (expired_mem_run (h.of_run pre) hmem hold mid)

theorem tracks_new {ttl : ℚ} {l : Ledger} (hl : Ledger.new ttl = some l) :
    Tracks ⟨l, fun _ => none⟩ := by
  unfold Ledger.new at hl
  split at hl
  · cases hl
    exact ⟨List.nodup_nil, by simp [Ledger.empty], by simp [Ledger.empty], List.nodup_nil,
      by simp [Ledger.empty], by simp⟩
  · cases hl

/-- **The window of a key.** Over a run from a new ledger, every post is told what
its key's window says, and every expired entry is gone within the posts allowed
for a sweep, if and only if the sweep of every post reaches its own key if that
has expired, and a sweep of the posts allowed reaches every expired entry. -/
theorem answers_iff_reached {ttl : ℚ} {l : Ledger} (hl : Ledger.new ttl = some l)
    (sweepPosts : Ledger → ℕ) (es : List LedgerEvent) :
    let w : Watch := ⟨l, fun _ => none⟩
    (Meets watchStep Answered w es ∧ Drains sweepPosts w es) ↔
      (Meets watchStep Reached w es ∧ Sweeps sweepPosts w es) := by
  have h := tracks_new hl
  exact and_congr
    (meets_iff_meets (fun _ e h => Tracks.of_step h e) (fun _ e h => answered_iff h e) h)
    (drains_iff_sweeps h sweepPosts es)

end Steps

/-- A key settled at 0 is refused at 999 and accepted at 1000. No state of that run
holds an expired entry. -/
theorem window_single : ∃ l, Ledger.new 1000 = some l ∧
    let w : Watch := ⟨l, fun _ => none⟩
    let es : List LedgerEvent :=
      [.post (some "a") 0, .inner .accepted, .post (some "a") 999, .post (some "a") 1000]
    Meets watchStep Answered w es ∧ Drains (fun l => l.entries.length) w es := by
  let w : Watch := ⟨.empty 1000 (by norm_num), fun _ => none⟩
  let es : List LedgerEvent :=
    [.post (some "a") 0, .inner .accepted, .post (some "a") 999, .post (some "a") 1000]
  have hnew : Ledger.new 1000 = some w.ledger := rfl
  refine ⟨_, hnew, (answers_iff_reached hnew _ _).mpr ⟨by decide +kernel, ?_⟩⟩
  intro pre mid post hes k s hmem hold
  have hyoung : ∀ n ≤ 4, ∀ e ∈ (run watchStep w (es.take n)).ledger.entries,
      e.expired 1000 (run watchStep w (es.take n)).ledger.clock = false := by
    decide +kernel
  have hpre : pre = es.take pre.length := by
    show pre = List.take pre.length [_, _, _, _]
    rw [hes, List.append_assoc, List.take_left]
  have hlen : pre.length ≤ 4 := by
    have := congrArg List.length hes
    simp only [List.length_append, List.length_cons, List.length_nil] at this
    omega
  have hno := hyoung pre.length hlen ⟨k, some s⟩ (hpre ▸ hmem)
  rw [← hpre, ← Bool.not_eq_true, expired_iff] at hno
  exact absurd hold hno

/-- Three keys settled at 0. The third post left the cursor on the second key, so
at 1000 the sweep expires the second and the third, and the first is refused. -/
theorem expired_key_refused : ∃ l, Ledger.new 1000 = some l ∧
    ¬ Meets watchStep Answered ⟨l, fun _ => none⟩
      [.post (some "a") 0, .inner .accepted, .post (some "b") 0, .inner .accepted,
        .post (some "c") 0, .inner .accepted, .post (some "a") 1000] :=
  ⟨_, rfl, by decide +kernel⟩

end PerformanceHelpers.PowerPool
