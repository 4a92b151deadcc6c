import Mathlib.Data.List.Nodup
import Mathlib.Data.Rat.Floor
import PerformanceHelpers.Run

/- `PowerDatagramChannel` (`src/helpers/powerDatagramChannel.js`).

   A datagram is a text or bytes. `frameByteLength` reads the `length` of a text, its UTF-16 code
   units, and the transport is handed its UTF-8 bytes. A call carries whether the transport throws
   at each `send` it makes; the hooks do not call the channel.

   What is accepted while the transport is closed waits in `queue`, with a number of its own. `owed`
   are the datagrams that were accepted so, in order, less those the queue policy dropped and those
   that were handed over. `send` cuts a large datagram only when the transport is open: a large
   datagram is queued whole, and `flush`, which does not cut, discards it. A flush therefore delivers
   what is owed exactly when every datagram that is owed fits the limit (`flushes_iff`). -/
namespace PerformanceHelpers.PowerDatagramChannel

inductive Datagram where
  | text (cs : List Char)
  | binary (bytes : List UInt8)
  deriving DecidableEq

/-- `_toBytes`, and what the transport sends. -/
def toBytes : Datagram → List UInt8
  | .text cs => cs.flatMap String.utf8EncodeChar
  | .binary bytes => bytes

def codeUnits (c : Char) : ℕ := if c.val ≤ 0xffff then 1 else 2

def frameByteLength : Datagram → ℕ
  | .text cs => (cs.map codeUnits).sum
  | .binary bytes => bytes.length

/-- The options: `maxQueue` and `fragmentSize` are `none` when they are infinite. -/
structure Config where
  maxDatagramSizeBytes : ℚ
  maxQueue : Option ℕ
  fragmentSize : Option ℕ
  deriving DecidableEq

structure Channel where
  config : Config
  isOpen : Bool
  disposed : Bool
  queue : List (ℕ × Datagram)
  fragmentedCount : ℕ
  fragmentsSent : ℕ
  sentCount : ℕ
  droppedCount : ℕ
  oversizeCount : ℕ
  errorCount : ℕ
  bytesOut : ℕ
  nextId : ℕ
  owed : List (ℕ × Datagram)
  handed : List Datagram
  deriving DecidableEq

inductive Failure where
  | oversize (size : ℕ) (limit : ℚ)
  deriving DecidableEq

def new (config : Config) (isOpen : Bool) : Channel where
  config := config
  isOpen := isOpen
  disposed := false
  queue := []
  fragmentedCount := 0
  fragmentsSent := 0
  sentCount := 0
  droppedCount := 0
  oversizeCount := 0
  errorCount := 0
  bytesOut := 0
  nextId := 0
  owed := []
  handed := []

/-- The size check: a limit of `0` is none. -/
def Config.TooLarge (config : Config) (size : ℕ) : Prop :=
  0 < config.maxDatagramSizeBytes ∧ config.maxDatagramSizeBytes < size

instance (config : Config) (size : ℕ) : Decidable (config.TooLarge size) :=
  inferInstanceAs (Decidable (_ ∧ _))

/-- `_queue.length < _maxQueue`. -/
def HasRoom (c : Channel) : Prop := ∀ n ∈ c.config.maxQueue, c.queue.length < n

instance (c : Channel) : Decidable (HasRoom c) := inferInstanceAs (Decidable (∀ n ∈ c.config.maxQueue, _))

def push (c : Channel) (datagram : Datagram) : Channel :=
  { c with
    queue := c.queue ++ [(c.nextId, datagram)]
    owed := c.owed ++ [(c.nextId, datagram)]
    nextId := c.nextId + 1 }

def dropOldest (c : Channel) : Channel :=
  match c.queue with
  | [] => c
  | oldest :: rest =>
    { c with
      queue := rest
      droppedCount := c.droppedCount + 1
      owed := c.owed.filter fun p => !decide (p.1 = oldest.1) }

/-- What `send` and `_sendFragmented` do while the transport is not open. -/
def enqueue (c : Channel) (datagram : Datagram) : Channel × Bool :=
  if c.config.maxQueue ≠ some 0 ∧ HasRoom c then (push c datagram, true)
  else
    let c₁ := if c.config.maxQueue ≠ some 0 ∧ 0 < c.queue.length then dropOldest c else c
    if c₁.config.maxQueue ≠ some 0 ∧ HasRoom c₁ then (push c₁ datagram, true)
    else ({ c₁ with droppedCount := c₁.droppedCount + 1 }, false)

def chunkSize (config : Config) (size : ℕ) : ℚ :=
  let base : ℚ := match config.fragmentSize with
    | some f => if 0 < f then f else size
    | none => if 0 < config.maxDatagramSizeBytes then config.maxDatagramSizeBytes else size
  if 0 < config.maxDatagramSizeBytes then
    let cut := min base config.maxDatagramSizeBytes
    if cut ≤ 0 then config.maxDatagramSizeBytes else cut
  else base

/-- `bytes.slice(start, end)`, which drops the fractions of its bounds. -/
def slice (bytes : List UInt8) (start stop : ℚ) : List UInt8 := (bytes.take ⌊stop⌋₊).drop ⌊start⌋₊

/-- The chunks `_sendFragmented` cuts. -/
def chunks (config : Config) (bytes : List UInt8) (size : ℕ) : List (List UInt8) :=
  let cut := chunkSize config size
  (List.range ⌈(bytes.length : ℚ) / cut⌉₊).map fun i =>
    slice bytes (i * cut) (min (i * cut + cut) bytes.length)

def sendChunk (throws : ℕ → Bool) (acc : Channel × ℕ) (chunk : List UInt8 × ℕ) : Channel × ℕ :=
  if throws chunk.2 = true then ({ acc.1 with errorCount := acc.1.errorCount + 2 }, acc.2)
  else
    ({ acc.1 with
        sentCount := acc.1.sentCount + 1
        bytesOut := acc.1.bytesOut + chunk.1.length
        fragmentsSent := acc.1.fragmentsSent + 1
        handed := acc.1.handed ++ [.binary chunk.1] }, acc.2 + 1)

def sendFragmented (c : Channel) (datagram : Datagram) (size : ℕ) (throws : ℕ → Bool) : Channel × Bool :=
  if c.isOpen = false then enqueue c datagram
  else
    let cs := chunks c.config (toBytes datagram) size
    let sent := cs.zipIdx.foldl (sendChunk throws) ({ c with fragmentedCount := c.fragmentedCount + 1 }, 0)
    (sent.1, decide (sent.2 = cs.length))

/-- `_fragmentSize > 0`. -/
def Fragments (config : Config) : Prop := config.fragmentSize ≠ some 0

instance (config : Config) : Decidable (Fragments config) := inferInstanceAs (Decidable (_ ≠ _))

def send (c : Channel) (datagram : Datagram) (throws : ℕ → Bool) : Channel × Except Failure Bool :=
  let size := frameByteLength datagram
  if c.disposed = true then (c, .ok false)
  else if c.config.TooLarge size then
    if Fragments c.config then ((sendFragmented c datagram size throws).1,
      .ok (sendFragmented c datagram size throws).2)
    else ({ c with oversizeCount := c.oversizeCount + 1, errorCount := c.errorCount + 1 },
      .error (.oversize size c.config.maxDatagramSizeBytes))
  else if Fragments c.config ∧ ∃ f ∈ c.config.fragmentSize, f < size then
    ((sendFragmented c datagram size throws).1, .ok (sendFragmented c datagram size throws).2)
  else if c.isOpen = false then ((enqueue c datagram).1, .ok (enqueue c datagram).2)
  else if throws 0 = true then ({ c with errorCount := c.errorCount + 1 }, .ok false)
  else
    ({ c with
        sentCount := c.sentCount + 1
        bytesOut := c.bytesOut + size
        handed := c.handed ++ [datagram] }, .ok true)

/-- The loop of `flush` over what is queued; `i` is the number of sends it made, and what it keeps is
queued again. -/
def flushLoop (throws : ℕ → Bool) : ℕ → List (ℕ × Datagram) → Channel → Channel
  | _, [], c => c
  | i, p :: rest, c =>
    let size := frameByteLength p.2
    if c.config.TooLarge size then
      flushLoop throws i rest
        { c with oversizeCount := c.oversizeCount + 1, errorCount := c.errorCount + 1 }
    else if throws i = true then
      flushLoop throws (i + 1) rest { c with errorCount := c.errorCount + 2, queue := c.queue ++ [p] }
    else
      flushLoop throws (i + 1) rest
        { c with
          sentCount := c.sentCount + 1
          bytesOut := c.bytesOut + size
          handed := c.handed ++ [p.2]
          owed := c.owed.filter fun q => !decide (q.1 = p.1) }

def flush (c : Channel) (throws : ℕ → Bool) : Channel :=
  if c.disposed = true then c else flushLoop throws 0 c.queue { c with queue := [] }

def close (c : Channel) (throws : ℕ → Bool) : Channel :=
  if c.disposed = true then c else { flush c throws with disposed := true }

def dispose (c : Channel) (throws : ℕ → Bool) : Channel :=
  if c.disposed = true then c else { flush c throws with disposed := true, queue := [] }

/-! ## Runs -/

/-- A call, with whether the transport throws at each send, or a change of the transport. -/
inductive Event where
  | transport (isOpen : Bool)
  | send (datagram : Datagram) (throws : ℕ → Bool)
  | flush (throws : ℕ → Bool)
  | close (throws : ℕ → Bool)
  | dispose (throws : ℕ → Bool)

def step (c : Channel) : Event → Channel
  | .transport isOpen => { c with isOpen := isOpen }
  | .send datagram throws => (send c datagram throws).1
  | .flush throws => flush c throws
  | .close throws => close c throws
  | .dispose throws => dispose c throws

def flushed : Event → Option (ℕ → Bool)
  | .transport _ | .send _ _ => none
  | .flush throws | .close throws | .dispose throws => some throws

def RunsClean (c : Channel) (throws : ℕ → Bool) : Prop :=
  c.disposed = false ∧ c.isOpen = true ∧ ∀ i < c.queue.length, throws i = false

def Carries (config : Config) (p : ℕ × Datagram) (group : List Datagram) : Prop :=
  group ≠ [] ∧ (group.map toBytes).flatten = toBytes p.2 ∧
    ∀ chunk ∈ group, ¬config.TooLarge (toBytes chunk).length

def Delivers (c : Channel) (throws : ℕ → Bool) : Prop :=
  ∃ groups : List (List Datagram), (flush c throws).handed = c.handed ++ groups.flatten ∧
    List.Forall₂ (Carries c.config) c.owed groups

/-- Every flush delivers. -/
def FlushDelivers (c : Channel) (e : Event) : Prop :=
  ∀ throws ∈ flushed e, RunsClean c throws → Delivers c throws

/-- Nothing that is owed when a flush runs is larger than the limit. -/
def OwesFitting (c : Channel) (e : Event) : Prop :=
  ∀ throws ∈ flushed e, RunsClean c throws → ∀ p ∈ c.owed, ¬c.config.TooLarge (toBytes p.2).length

/-! ## Sizes -/

theorem codeUnits_le (c : Char) : codeUnits c ≤ c.utf8Size := by
  unfold codeUnits
  split
  · exact c.utf8Size_pos
  · next h =>
    -- a character outside the first plane has four bytes
    have hbig : c.utf8Size = 4 := by
      unfold Char.utf8Size
      have h₁ : ¬c.val ≤ UInt32.ofNatLT 0x7f (by decide) := fun hle => h (UInt32.le_trans hle (by decide))
      have h₂ : ¬c.val ≤ UInt32.ofNatLT 0x7ff (by decide) := fun hle => h (UInt32.le_trans hle (by decide))
      have h₃ : ¬c.val ≤ UInt32.ofNatLT 0xffff (by decide) := h
      rw [if_neg h₁, if_neg h₂, if_neg h₃]
    omega

theorem frameByteLength_le (d : Datagram) : frameByteLength d ≤ (toBytes d).length := by
  cases d with
  | binary bytes => exact Nat.le_refl _
  | text cs =>
    show (cs.map codeUnits).sum ≤ (cs.flatMap String.utf8EncodeChar).length
    induction cs with
    | nil => exact Nat.le_refl _
    | cons c cs ih =>
      have hc := codeUnits_le c
      rw [List.map_cons, List.sum_cons, List.flatMap_cons, List.length_append, String.length_utf8EncodeChar]
      omega

/-- What `flush` sends. -/
def fits (config : Config) (p : ℕ × Datagram) : Bool := !decide (config.TooLarge (frameByteLength p.2))

theorem fits_of_bytes {config : Config} {p : ℕ × Datagram} (h : ¬config.TooLarge (toBytes p.2).length) :
    fits config p = true := by
  unfold fits
  rw [Bool.not_eq_true', decide_eq_false_iff_not]
  rintro ⟨hpos, hlt⟩
  refine h ⟨hpos, lt_of_lt_of_le hlt ?_⟩
  exact_mod_cast frameByteLength_le p.2

/-! ## What a flush does -/

def ids (ps : List (ℕ × Datagram)) : List ℕ := ps.map Prod.fst

/-- The datagrams whose numbers are not among `sent`. -/
def without (sent : List ℕ) (ps : List (ℕ × Datagram)) : List (ℕ × Datagram) :=
  ps.filter fun p => !decide (p.1 ∈ sent)

/-- The datagrams `sent` were handed over out of `queue`, and the others that fit are queued
again. -/
structure Flushes (queue sent : List (ℕ × Datagram)) (c c' : Channel) : Prop where
  config : c'.config = c.config
  isOpen : c'.isOpen = c.isOpen
  disposed : c'.disposed = c.disposed
  nextId : c'.nextId = c.nextId
  sub : sent.Sublist queue
  handed : c'.handed = c.handed ++ sent.map Prod.snd
  owed : c'.owed = without (ids sent) c.owed
  queue : c'.queue = c.queue ++ without (ids sent) (queue.filter (fits c.config))

theorem without_nil (ps : List (ℕ × Datagram)) : without [] ps = ps :=
  List.filter_eq_self.mpr fun p _ => by simp

theorem without_without (p : ℕ × Datagram) (sent : List ℕ) (ps : List (ℕ × Datagram)) :
    without sent (ps.filter fun q => !decide (q.1 = p.1)) = without (p.1 :: sent) ps := by
  unfold without
  rw [List.filter_filter]
  refine List.filter_congr fun q _ => ?_
  by_cases hq : q.1 = p.1 <;> simp [hq]

/-- A number that is nowhere in the list takes nothing out of it. -/
theorem without_cons_of_not_mem {n : ℕ} {sent : List ℕ} {ps : List (ℕ × Datagram)} (h : n ∉ ids ps) :
    without (n :: sent) ps = without sent ps := by
  refine List.filter_congr fun q hq => ?_
  have hne : q.1 ≠ n := fun heq => h (heq ▸ List.mem_map_of_mem hq)
  simp [hne]

theorem flushLoop_flushes (throws : ℕ → Bool) (queue : List (ℕ × Datagram)) (hnd : (ids queue).Nodup)
    (i : ℕ) (c : Channel) :
    ∃ sent, Flushes queue sent c (flushLoop throws i queue c) ∧
      ((∀ j, i ≤ j → j < i + queue.length → throws j = false) → sent = queue.filter (fits c.config)) := by
  induction queue generalizing i c with
  | nil =>
    refine ⟨[], ⟨rfl, rfl, rfl, rfl, List.Sublist.refl _, ?_, (without_nil _).symm, ?_⟩, fun _ => rfl⟩
    · exact (List.append_nil _).symm
    · exact (List.append_nil _).symm
  | cons p rest ih =>
    obtain ⟨hnew, hrest⟩ := List.nodup_cons.mp (by simpa [ids] using hnd : (p.1 :: ids rest).Nodup)
    rw [flushLoop]
    by_cases hlarge : c.config.TooLarge (frameByteLength p.2)
    · rw [if_pos hlarge]
      have hskip : (p :: rest).filter (fits c.config) = rest.filter (fits c.config) :=
        List.filter_cons_of_neg (by unfold fits; simpa using hlarge)
      obtain ⟨sent, hf, hall⟩ := ih hrest i
        { c with oversizeCount := c.oversizeCount + 1, errorCount := c.errorCount + 1 }
      refine ⟨sent, ⟨hf.config, hf.isOpen, hf.disposed, hf.nextId, hf.sub.cons p, hf.handed, hf.owed, ?_⟩,
        fun hclean => ?_⟩
      · rw [hskip]
        exact hf.queue
      · rw [hskip]
        exact hall fun j hj hlt => hclean j hj (by rw [List.length_cons]; omega)
    · rw [if_neg hlarge]
      have hkeep : (p :: rest).filter (fits c.config) = p :: rest.filter (fits c.config) :=
        List.filter_cons_of_pos (by unfold fits; simpa using hlarge)
      have hrestFits : p.1 ∉ ids (rest.filter (fits c.config)) := by
        intro hmem
        obtain ⟨q, hq, heq⟩ := List.mem_map.mp hmem
        exact hnew (heq ▸ List.mem_map_of_mem (List.mem_of_mem_filter hq))
      by_cases hthrow : throws i = true
      · rw [if_pos hthrow]
        obtain ⟨sent, hf, -⟩ := ih hrest (i + 1)
          { c with errorCount := c.errorCount + 2, queue := c.queue ++ [p] }
        have hstays : p.1 ∉ ids sent := fun hmem => hnew (hf.sub.map Prod.fst |>.subset hmem)
        refine ⟨sent, ⟨hf.config, hf.isOpen, hf.disposed, hf.nextId, hf.sub.cons p, hf.handed, hf.owed, ?_⟩,
          fun hclean => ?_⟩
        · have hone : without (ids sent) (p :: rest.filter (fits c.config)) =
              p :: without (ids sent) (rest.filter (fits c.config)) :=
            List.filter_cons_of_pos (by simpa using hstays)
          rw [hf.queue, hkeep, hone, List.append_assoc]
          rfl
        · rw [hclean i (Nat.le_refl i) (by rw [List.length_cons]; omega)] at hthrow
          exact Bool.noConfusion hthrow
      · rw [if_neg hthrow]
        obtain ⟨sent, hf, hall⟩ := ih hrest (i + 1)
          { c with
            sentCount := c.sentCount + 1
            bytesOut := c.bytesOut + frameByteLength p.2
            handed := c.handed ++ [p.2]
            owed := c.owed.filter fun q => !decide (q.1 = p.1) }
        refine ⟨p :: sent, ⟨hf.config, hf.isOpen, hf.disposed, hf.nextId, hf.sub.cons_cons p, ?_, ?_, ?_⟩,
          fun hclean => ?_⟩
        · rw [hf.handed, List.append_assoc]
          rfl
        · rw [hf.owed]
          exact without_without p _ _
        · have hgone : without (ids (p :: sent)) (p :: rest.filter (fits c.config)) =
              without (ids (p :: sent)) (rest.filter (fits c.config)) :=
            List.filter_cons_of_neg (by simp [ids])
          rw [hf.queue, hkeep, hgone]
          exact congrArg (c.queue ++ ·) (without_cons_of_not_mem hrestFits).symm
        · rw [hkeep, hall fun j hj hlt => hclean j (by omega) (by rw [List.length_cons]; omega)]

/-! ## What is owed -/

structure Owing (c : Channel) : Prop where
  nodup : (ids c.owed).Nodup
  fresh : ∀ p ∈ c.owed, p.1 < c.nextId
  sub : c.queue.Sublist c.owed
  fits : c.owed.filter (fits c.config) = c.queue.filter (PowerDatagramChannel.fits c.config)

section
variable {c : Channel}

theorem Owing.queue_nodup (h : Owing c) : (ids c.queue).Nodup := h.nodup.sublist (h.sub.map Prod.fst)

theorem Owing.push (h : Owing c) (d : Datagram) : Owing (push c d) := by
  unfold PowerDatagramChannel.push
  refine ⟨?_, ?_, h.sub.append (List.Sublist.refl _), ?_⟩
  · unfold ids
    rw [List.map_append]
    refine List.nodup_append.mpr ⟨h.nodup, by simp, ?_⟩
    intro a ha b hb hab
    obtain ⟨p, hp, rfl⟩ := List.mem_map.mp ha
    have hlt := h.fresh p hp
    simp only [List.map_cons, List.map_nil, List.mem_singleton] at hb
    omega
  · intro p hp
    show p.1 < c.nextId + 1
    rcases List.mem_append.mp hp with hold | hnew
    · exact Nat.lt_succ_of_lt (h.fresh p hold)
    · rw [List.mem_singleton.mp hnew]
      exact Nat.lt_succ_self _
  · dsimp only
    rw [List.filter_append, List.filter_append, h.fits]

/-- Taking some numbers out of what is owed and of what is queued. -/
theorem filter_fits_without {config : Config} {sent : List ℕ} {ps qs : List (ℕ × Datagram)}
    (h : ps.filter (fits config) = qs.filter (fits config)) :
    (without sent ps).filter (fits config) = without sent (qs.filter (fits config)) := by
  unfold without
  rw [← h, List.filter_filter, List.filter_filter]
  exact List.filter_congr fun p _ => Bool.and_comm _ _

theorem Owing.dropOldest (h : Owing c) : Owing (dropOldest c) := by
  unfold PowerDatagramChannel.dropOldest
  cases hqueue : c.queue with
  | nil => exact h
  | cons oldest rest =>
    have hnd := h.queue_nodup
    rw [hqueue] at hnd
    obtain ⟨hnew, -⟩ := List.nodup_cons.mp (by simpa [ids] using hnd : (oldest.1 :: ids rest).Nodup)
    have hdrop : ∀ ps : List (ℕ × Datagram),
        (ps.filter fun p => !decide (p.1 = oldest.1)) = without [oldest.1] ps := by
      intro ps
      exact List.filter_congr fun p _ => by simp
    have hrest : without [oldest.1] (oldest :: rest) = rest := by
      unfold without
      rw [List.filter_cons_of_neg (by simp), List.filter_eq_self]
      intro q hq
      have hne : q.1 ≠ oldest.1 := fun heq => hnew (heq ▸ List.mem_map_of_mem hq)
      simpa using hne
    have hsub : rest.Sublist (without [oldest.1] c.owed) := by
      rw [← hrest]
      exact (hqueue ▸ h.sub).filter _
    refine ⟨?_, ?_, ?_, ?_⟩
    · exact h.nodup.sublist (List.filter_sublist.map Prod.fst)
    · exact fun p hp => h.fresh p (List.mem_of_mem_filter hp)
    · dsimp only
      rw [hdrop]
      exact hsub
    · dsimp only
      rw [hdrop, filter_fits_without h.fits, hqueue]
      conv_rhs => rw [← hrest]
      exact (filter_fits_without rfl).symm

theorem Owing.congr {c' : Channel} (h : Owing c) (hconfig : c'.config = c.config)
    (hqueue : c'.queue = c.queue) (howed : c'.owed = c.owed) (hid : c'.nextId = c.nextId) : Owing c' := by
  refine ⟨howed ▸ h.nodup, ?_, ?_, ?_⟩
  · rw [howed, hid]
    exact h.fresh
  · rw [howed, hqueue]
    exact h.sub
  · rw [howed, hqueue, hconfig]
    exact h.fits

theorem Owing.enqueue (h : Owing c) (d : Datagram) : Owing (enqueue c d).1 := by
  unfold PowerDatagramChannel.enqueue
  split
  · exact h.push d
  · have h₁ : Owing (if c.config.maxQueue ≠ some 0 ∧ 0 < c.queue.length then
        PowerDatagramChannel.dropOldest c else c) := by
      split
      · exact h.dropOldest
      · exact h
    generalize (if c.config.maxQueue ≠ some 0 ∧ 0 < c.queue.length then
      PowerDatagramChannel.dropOldest c else c) = c₁ at h₁
    dsimp only
    split
    · exact h₁.push d
    · exact h₁.congr rfl rfl rfl rfl

/-- The chunks of a datagram go past the queue. -/
theorem sendChunks_owing (throws : ℕ → Bool) (cs : List (List UInt8 × ℕ)) (acc : Channel × ℕ)
    (h : Owing acc.1) : Owing (cs.foldl (sendChunk throws) acc).1 := by
  induction cs generalizing acc with
  | nil => exact h
  | cons chunk cs ih =>
    rw [List.foldl_cons]
    apply ih
    unfold sendChunk
    split <;> exact h.congr rfl rfl rfl rfl

theorem Owing.sendFragmented (h : Owing c) (d : Datagram) (size : ℕ) (throws : ℕ → Bool) :
    Owing (sendFragmented c d size throws).1 := by
  unfold PowerDatagramChannel.sendFragmented
  split
  · exact h.enqueue d
  · exact sendChunks_owing throws _ _ (h.congr rfl rfl rfl rfl)

theorem Owing.send (h : Owing c) (d : Datagram) (throws : ℕ → Bool) : Owing (send c d throws).1 := by
  unfold PowerDatagramChannel.send
  dsimp only
  split
  · exact h
  · split
    · split
      · exact h.sendFragmented d _ throws
      · exact h.congr rfl rfl rfl rfl
    · split
      · exact h.sendFragmented d _ throws
      · split
        · exact h.enqueue d
        · split <;> exact h.congr rfl rfl rfl rfl

theorem Owing.flush (h : Owing c) (hopen : c.disposed = false) (throws : ℕ → Bool) :
    Owing (flush c throws) ∧ (flush c throws).disposed = false ∧
      ((∀ i < c.queue.length, throws i = false) →
        (flush c throws).handed = c.handed ++ (c.owed.filter (PowerDatagramChannel.fits c.config)).map Prod.snd) := by
  obtain ⟨sent, hf, hall⟩ := flushLoop_flushes throws c.queue h.queue_nodup 0 { c with queue := [] }
  have heq : PowerDatagramChannel.flush c throws = flushLoop throws 0 c.queue { c with queue := [] } := by
    unfold PowerDatagramChannel.flush
    rw [hopen, if_neg Bool.false_ne_true]
  rw [heq]
  have hqueue : (flushLoop throws 0 c.queue { c with queue := [] }).queue =
      without (ids sent) (c.queue.filter (PowerDatagramChannel.fits c.config)) := hf.queue
  have howed : (flushLoop throws 0 c.queue { c with queue := [] }).owed = without (ids sent) c.owed := hf.owed
  refine ⟨⟨?_, ?_, ?_, ?_⟩, hf.disposed.trans hopen, fun hclean => ?_⟩
  · rw [howed]
    exact h.nodup.sublist (List.filter_sublist.map Prod.fst)
  · rw [howed, hf.nextId]
    exact fun p hp => h.fresh p (List.mem_of_mem_filter hp)
  · rw [howed, hqueue]
    exact (List.filter_sublist.trans h.sub).filter _
  · rw [howed, hqueue, hf.config, filter_fits_without h.fits]
    refine (List.filter_eq_self.mpr fun p hp => ?_).symm
    exact (List.mem_filter.mp (List.mem_of_mem_filter hp)).2
  · rw [hf.handed, hall fun j _ hlt => hclean j (by omega)]
    show c.handed ++ _ = _
    rw [h.fits]

theorem close_disposed (c : Channel) (throws : ℕ → Bool) : (close c throws).disposed = true := by
  unfold close
  split
  · assumption
  · rfl

theorem dispose_disposed (c : Channel) (throws : ℕ → Bool) : (dispose c throws).disposed = true := by
  unfold dispose
  split
  · assumption
  · rfl

theorem step_owing (h : c.disposed = false → Owing c) (e : Event) :
    (step c e).disposed = false → Owing (step c e) := by
  intro hopen'
  cases e with
  | transport isOpen => exact (h hopen').congr rfl rfl rfl rfl
  | send d throws =>
    by_cases hopen : c.disposed = false
    · exact (h hopen).send d throws
    · have hsame : (send c d throws).1 = c := by
        unfold send
        rw [Bool.eq_true_of_not_eq_false hopen]
        rfl
      rw [step, hsame] at hopen'
      exact absurd hopen' hopen
  | flush throws =>
    by_cases hopen : c.disposed = false
    · exact ((h hopen).flush hopen throws).1
    · have hsame : flush c throws = c := if_pos (Bool.eq_true_of_not_eq_false hopen)
      rw [step, hsame] at hopen'
      exact absurd hopen' hopen
  | close throws =>
    replace hopen' : (close c throws).disposed = false := hopen'
    rw [close_disposed] at hopen'
    exact Bool.noConfusion hopen'
  | dispose throws =>
    replace hopen' : (dispose c throws).disposed = false := hopen'
    rw [dispose_disposed] at hopen'
    exact Bool.noConfusion hopen'

/-- Groups that are not empty hold at least one chunk each. -/
theorem length_le_of_carries {config : Config} {ps : List (ℕ × Datagram)} {groups : List (List Datagram)}
    (h : List.Forall₂ (Carries config) ps groups) : ps.length ≤ groups.flatten.length := by
  induction h with
  | nil => exact Nat.le_refl _
  | cons hp _ ih =>
    have hpos := List.length_pos_iff.mpr hp.1
    rw [List.length_cons, List.flatten_cons, List.length_append]
    omega

theorem carries_within {config : Config} {ps : List (ℕ × Datagram)} {groups : List (List Datagram)}
    (h : List.Forall₂ (Carries config) ps groups) :
    ∀ chunk ∈ groups.flatten, ¬config.TooLarge (toBytes chunk).length := by
  induction h with
  | nil => simp
  | cons hp _ ih =>
    intro chunk hchunk
    rw [List.flatten_cons] at hchunk
    rcases List.mem_append.mp hchunk with hfirst | hlater
    · exact hp.2.2 chunk hfirst
    · exact ih chunk hlater

theorem carries_singletons {config : Config} {ps : List (ℕ × Datagram)}
    (h : ∀ p ∈ ps, ¬config.TooLarge (toBytes p.2).length) :
    List.Forall₂ (Carries config) ps (ps.map fun p => [p.2]) := by
  rw [List.forall₂_map_right_iff, List.forall₂_same]
  intro p hp
  exact ⟨List.cons_ne_nil _ _, by simp, by simpa using h p hp⟩

theorem delivers_iff (h : Owing c) {throws : ℕ → Bool} (hclean : RunsClean c throws) :
    Delivers c throws ↔ ∀ p ∈ c.owed, ¬c.config.TooLarge (toBytes p.2).length := by
  obtain ⟨-, -, hhanded⟩ := h.flush hclean.1 throws
  have hsent := hhanded hclean.2.2
  constructor
  · rintro ⟨groups, hgroups, hcarries⟩
    rw [hsent] at hgroups
    have hflat := List.append_cancel_left hgroups
    have hlen := congrArg List.length hflat
    rw [List.length_map] at hlen
    have hall : c.owed.filter (fits c.config) = c.owed := by
      refine List.filter_sublist.eq_of_length_le ?_
      rw [hlen]
      exact length_le_of_carries hcarries
    rw [hall] at hflat
    intro p hp
    refine carries_within hcarries p.2 ?_
    rw [← hflat]
    exact List.mem_map_of_mem hp
  · intro hfit
    refine ⟨c.owed.map fun p => [p.2], ?_, carries_singletons hfit⟩
    have hall : c.owed.filter (fits c.config) = c.owed :=
      List.filter_eq_self.mpr fun p hp => fits_of_bytes (hfit p hp)
    rw [hsent, hall]
    congr 1
    induction c.owed with
    | nil => rfl
    | cons p ps ih => rw [List.map_cons, List.map_cons, List.flatten_cons, ← ih]; rfl

end

/-- Every flush of a run that finds the transport open and does not see it throw hands over what is
owed, in order and in chunks within the limit, exactly when nothing that is owed at such a flush is
larger than the limit. -/
theorem flushes_iff (config : Config) (isOpen : Bool) (es : List Event) :
    Meets step FlushDelivers (new config isOpen) es ↔ Meets step OwesFitting (new config isOpen) es := by
  have hstep : ∀ (c : Channel) (e : Event), (c.disposed = false → Owing c) →
      (step c e).disposed = false → Owing (step c e) := fun _ e h => step_owing h e
  refine meets_iff_meets hstep (fun c e h => ?_) fun _ => ?_
  · unfold FlushDelivers OwesFitting
    refine forall₃_congr fun throws _ hclean => ?_
    exact delivers_iff (h hclean.1) hclean
  · exact ⟨List.nodup_nil, by simp [new], List.Sublist.refl _, rfl⟩

/-- A datagram larger than the limit, which a channel that cuts datagrams accepts while the transport
is closed, is not handed over when the transport opens and the queue is flushed. -/
theorem flush_discards_large :
    let c := run step (new ⟨4, some 64, some 2⟩ false)
      [.send (.binary [1, 2, 3, 4, 5]) fun _ => false, .transport true]
    (send (new ⟨4, some 64, some 2⟩ false) (.binary [1, 2, 3, 4, 5]) fun _ => false).2.toOption = some true ∧
      c.owed.map Prod.snd = [.binary [1, 2, 3, 4, 5]] ∧ (flush c fun _ => false).handed = [] := by
  decide +kernel

end PerformanceHelpers.PowerDatagramChannel
