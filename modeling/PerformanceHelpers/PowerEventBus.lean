import PerformanceHelpers.EntryMap
import PerformanceHelpers.PowerSubscriberSet
import PerformanceHelpers.RegExp

/- `PowerEventBus` (`src/helpers/powerEventBus.js`), without `weak`, and with listeners
   that do not call the bus again.

   The listeners of an event and those of a pattern are kept in two maps of subscriber
   sets; a key with a `*` is a pattern, and each map holds keys of one kind (`Store`).
   `_wildcardRegexCache` makes no difference to what is found, and is left out with
   `once`, `off`, `clearAll`, `emitAsync` and `dispose`. -/
namespace PerformanceHelpers.PowerEventBus
open RegExp PowerSubscriberSet

def isWildcard (event : Text) : Bool := decide (unit '*' ∈ event)

/-- The characters that `_wildcardRegex` escapes. -/
def escaped : Text := ['.', '+', '^', '$', '\x7b', '\x7d', '(', ')', '|', '[', ']', '\\'].map unit

def escape (pattern : Text) : Text := pattern.flatMap fun c => if c ∈ escaped then [unit '\\', c] else [c]

def replaceStars (pattern : Text) : Text :=
  pattern.flatMap fun c => if c = unit '*' then text "[^:]*" else [c]

/-- `_wildcardRegex`, or the error of the constructor. -/
def wildcardRegex (pattern : Text) : Except Failure (List Term) :=
  compile (unit '^' :: (replaceStars (escape pattern) ++ [unit '$']))

/-- A `Map` of subscriber sets, all of whose keys are patterns, or none. -/
structure Store (F : Type) (wild : Bool) where
  entries : List (Text × Subscribers F)
  nodup : (entries.map Prod.fst).Nodup
  kind : ∀ key ∈ entries.map Prod.fst, isWildcard key = wild

namespace Store
variable {F : Type} {wild : Bool}

def empty : Store F wild := ⟨[], List.nodup_nil, fun _ h => by cases h⟩

def get (s : Store F wild) (key : Text) : Option (Subscribers F) := EntryMap.get key s.entries

def set (s : Store F wild) (key : Text) (bucket : Subscribers F) (h : isWildcard key = wild) : Store F wild where
  entries := EntryMap.set key bucket s.entries
  nodup := EntryMap.nodup_set s.nodup
  kind := by
    intro k hk
    rw [EntryMap.mem_keys, EntryMap.get_set] at hk
    split at hk
    · next heq => exact heq ▸ h
    · exact s.kind k (EntryMap.mem_keys.mpr hk)

def keep (s : Store F wild) (entries : List (Text × Subscribers F))
    (h : (entries.map Prod.fst).Sublist (s.entries.map Prod.fst)) : Store F wild where
  entries := entries
  nodup := h.nodup s.nodup
  kind := fun k hk => s.kind k (h.subset hk)

def delete (s : Store F wild) (key : Text) : Store F wild :=
  s.keep (EntryMap.delete key s.entries) (List.filter_sublist.map _)

end Store

/-- The fields of a bus. -/
structure Bus (F : Type) where
  maxListeners : ℕ
  listeners : Store F false
  wildcards : Store F true

section
variable {F : Type} [DecidableEq F]

def new (maxListeners : ℕ) : Bus F := ⟨maxListeners, .empty, .empty⟩

/-- What `on` and `once` share: a bucket is made where there is none. -/
def subscribe (bus : Bus F) (event : Text)
    (add : Subscribers F → Subscribers F × Option ℕ) : Bus F × Option ℕ :=
  if h : isWildcard event = true then
    let (bucket, unsubscribe) := add ((bus.wildcards.get event).getD (PowerSubscriberSet.new bus.maxListeners))
    ({ bus with wildcards := bus.wildcards.set event bucket h }, unsubscribe)
  else
    let (bucket, unsubscribe) := add ((bus.listeners.get event).getD (PowerSubscriberSet.new bus.maxListeners))
    ({ bus with listeners := bus.listeners.set event bucket (by simpa using h) }, unsubscribe)

/-- `on`; `none` is the error of a full bucket. -/
def on (bus : Bus F) (event : Text) (fn : F) : Bus F × Option ℕ :=
  subscribe bus event fun bucket => PowerSubscriberSet.add bucket fn

/-- `values` of a bucket. -/
def values (bucket : Subscribers F) : List (Listener F) := (bucket.slots.filter Slot.live).map Slot.listener

def notify (bucket : Subscribers F) : Listener F → Subscribers F
  | .fn _ => bucket
  | .wrapper _ f => PowerSubscriberSet.delete bucket f

/-- The listeners of a bucket are called. -/
def dispatch (bucket : Subscribers F) : Subscribers F := (values bucket).foldl notify bucket

/-- A call of a listener, with the pattern it listens to. -/
structure Call (F : Type) where
  pattern : Option Text
  listener : Listener F
  deriving DecidableEq

/-- The calls of a bucket. -/
def calls (pattern : Option Text) (bucket : Subscribers F) : List (Call F) :=
  (values bucket).map fun l => ⟨pattern, l⟩

/-- What the loop of `emit` over the patterns leaves, whom it calls, and whether a pattern
that cannot be compiled ends it. -/
structure Emitted (F : Type) where
  entries : List (Text × Subscribers F)
  calls : List (Call F)
  threw : Bool

def emitWildcards (event : Text) : List (Text × Subscribers F) → Emitted F
  | [] => ⟨[], [], false⟩
  | (pattern, bucket) :: rest =>
    match wildcardRegex pattern with
    | .error _ => ⟨(pattern, bucket) :: rest, [], true⟩
    | .ok re =>
      let after := emitWildcards event rest
      if test re event = false then { after with entries := (pattern, bucket) :: after.entries }
      else if size bucket = 0 then { after with entries := (pattern, bucket) :: after.entries }
      else
        { after with
          entries := if size (dispatch bucket) = 0 then after.entries
            else (pattern, dispatch bucket) :: after.entries
          calls := calls (some pattern) bucket ++ after.calls }

theorem emitWildcards_keys (event : Text) (m : List (Text × Subscribers F)) :
    ((emitWildcards event m).entries.map Prod.fst).Sublist (m.map Prod.fst) := by
  induction m with
  | nil => exact List.Sublist.refl _
  | cons e m ih =>
    obtain ⟨pattern, bucket⟩ := e
    rw [emitWildcards]
    split
    · exact List.Sublist.refl _
    · split
      · exact ih.cons_cons _
      · split
        · exact ih.cons_cons _
        · dsimp only
          split
          · exact ih.cons _
          · exact ih.cons_cons _

/-- The first part of `emit`: the listeners of the event itself. -/
def emitListeners (s : Store F false) (event : Text) (h : isWildcard event = false) :
    Store F false × List (Call F) :=
  match s.get event with
  | none => (s, [])
  | some bucket =>
    if size bucket = 0 then (s, [])
    else
      (if size (dispatch bucket) = 0 then s.delete event else s.set event (dispatch bucket) h,
        calls none bucket)

def emit (bus : Bus F) (event : Text) : Bus F × List (Call F) × Bool :=
  let exact : Store F false × List (Call F) :=
    if h : isWildcard event = false then emitListeners bus.listeners event h else (bus.listeners, [])
  let after := emitWildcards event bus.wildcards.entries
  ({ bus with
    listeners := exact.1
    wildcards := bus.wildcards.keep after.entries (emitWildcards_keys event _) },
    exact.2 ++ after.calls, after.threw)

/-- The loop of `clear` over the patterns, and whether one ends it. -/
def clearWildcards (event : Text) : List (Text × Subscribers F) → List (Text × Subscribers F) × Bool
  | [] => ([], false)
  | (pattern, bucket) :: rest =>
    match wildcardRegex pattern with
    | .error _ => ((pattern, bucket) :: rest, true)
    | .ok re =>
      let after := clearWildcards event rest
      (if test re event = true then after.1 else (pattern, bucket) :: after.1, after.2)

theorem clearWildcards_keys (event : Text) (m : List (Text × Subscribers F)) :
    ((clearWildcards event m).1.map Prod.fst).Sublist (m.map Prod.fst) := by
  induction m with
  | nil => exact List.Sublist.refl _
  | cons e m ih =>
    obtain ⟨pattern, bucket⟩ := e
    rw [clearWildcards]
    split
    · exact List.Sublist.refl _
    · dsimp only
      split
      · exact ih.cons _
      · exact ih.cons_cons _

/-- `clear` of an event. -/
def clear (bus : Bus F) (event : Text) : Bus F × Bool :=
  ({ bus with
    listeners := bus.listeners.delete event
    wildcards := bus.wildcards.keep (clearWildcards event bus.wildcards.entries).1
      (clearWildcards_keys event _) },
    (clearWildcards event bus.wildcards.entries).2)

end

end PerformanceHelpers.PowerEventBus
