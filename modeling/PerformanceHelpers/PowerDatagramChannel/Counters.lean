import PerformanceHelpers.PowerDatagramChannel

/- The counters of `PowerDatagramChannel` (`src/helpers/powerDatagramChannel.js`).

   A call of `send` on a channel that is not disposed is accepted and numbered. `Fates` says where each
   accepted call stands: handed over whole or in chunks, waiting in the queue, dropped by the queue's
   policy, too large, or failed at the transport. It reads the answers of the channel and whether the
   transport throws, and none of the counters.

   `send` counts a transport failure in `_emitError` only. `_sendFragmented` and `flush` count it
   themselves and call `_emitError` as well, so that `errorCount` is ahead by the failures of chunks and
   of flushed datagrams. Everything else is exact in every run (`Booked`).

   What is proved:
     1. `Booked.step` — what a step counts twice is all that it adds to the error in `errorCount`.
     2. `counts_iff` — the counters are exact throughout a run exactly when no chunk and no flushed
        datagram of the run fails at the transport. -/
namespace PerformanceHelpers.PowerDatagramChannel

/-- The numbers of the accepted calls by how they ended, and how often the transport threw. -/
structure Fates where
  calls : ℕ
  sent : List ℕ
  cut : List ℕ
  waiting : List ℕ
  dropped : List ℕ
  oversize : List ℕ
  failed : List ℕ
  failures : ℕ
  deriving DecidableEq

namespace Fates

def all (f : Fates) : List ℕ := f.sent ++ f.cut ++ f.waiting ++ f.dropped ++ f.oversize ++ f.failed

/-- `_queue.shift()`. -/
def dropOldest (f : Fates) : Fates :=
  match f.waiting with
  | [] => f
  | n :: rest => { f with waiting := rest, dropped := f.dropped ++ [n] }

def enqueue (c : Channel) (datagram : Datagram) (f : Fates) : Fates :=
  let f₁ := if ¬(c.config.maxQueue ≠ some 0 ∧ HasRoom c) ∧ c.config.maxQueue ≠ some 0 ∧ 0 < c.queue.length
    then f.dropOldest else f
  if (PowerDatagramChannel.enqueue c datagram).2 = true then
    { f₁ with waiting := f₁.waiting ++ [f₁.calls], calls := f₁.calls + 1 }
  else { f₁ with dropped := f₁.dropped ++ [f₁.calls], calls := f₁.calls + 1 }

end Fates

/-- How many of `n` sends throw, from the send `i` on. -/
def thrown (throws : ℕ → Bool) (i n : ℕ) : ℕ := (List.range' i n).countP throws

/-- `send` leaves the datagram to `_sendFragmented`. -/
def Cuts (config : Config) (size : ℕ) : Prop :=
  Fragments config ∧ (config.TooLarge size ∨ ∃ f ∈ config.fragmentSize, f < size)

instance (config : Config) (size : ℕ) : Decidable (Cuts config size) :=
  inferInstanceAs (Decidable (_ ∧ (_ ∨ ∃ f ∈ config.fragmentSize, f < size)))

def chunkCount (config : Config) (datagram : Datagram) : ℕ :=
  (chunks config (toBytes datagram) (frameByteLength datagram)).length

namespace Fates

def send (c : Channel) (datagram : Datagram) (throws : ℕ → Bool) (f : Fates) : Fates :=
  let size := frameByteLength datagram
  if c.disposed = true then f
  else if Cuts c.config size then
    if c.isOpen = false then f.enqueue c datagram
    else
      let f₁ := { f with failures := f.failures + thrown throws 0 (chunkCount c.config datagram) }
      if (sendFragmented c datagram size throws).2 = true then
        { f₁ with cut := f₁.cut ++ [f₁.calls], calls := f₁.calls + 1 }
      else { f₁ with failed := f₁.failed ++ [f₁.calls], calls := f₁.calls + 1 }
  else if c.config.TooLarge size then { f with oversize := f.oversize ++ [f.calls], calls := f.calls + 1 }
  else if c.isOpen = false then f.enqueue c datagram
  else if throws 0 = true then
    { f with failed := f.failed ++ [f.calls], failures := f.failures + 1, calls := f.calls + 1 }
  else { f with sent := f.sent ++ [f.calls], calls := f.calls + 1 }

/-- The loop of `flush`, over the calls that wait with what is queued for them. -/
def flushLoop (config : Config) (throws : ℕ → Bool) : ℕ → List (ℕ × ℕ × Datagram) → Fates → Fates
  | _, [], f => f
  | i, q :: rest, f =>
    if config.TooLarge (frameByteLength q.2.2) then
      flushLoop config throws i rest { f with oversize := f.oversize ++ [q.1] }
    else if throws i = true then
      flushLoop config throws (i + 1) rest
        { f with waiting := f.waiting ++ [q.1], failures := f.failures + 1 }
    else flushLoop config throws (i + 1) rest { f with sent := f.sent ++ [q.1] }

def flush (c : Channel) (throws : ℕ → Bool) (f : Fates) : Fates :=
  if c.disposed = true then f
  else flushLoop c.config throws 0 (f.waiting.zip c.queue) { f with waiting := [] }

/-- What `dispose` could not flush has failed. -/
def dispose (c : Channel) (throws : ℕ → Bool) (f : Fates) : Fates :=
  if c.disposed = true then f
  else
    let f₁ := f.flush c throws
    { f₁ with failed := f₁.failed ++ f₁.waiting, waiting := [] }

def step (c : Channel) (f : Fates) : Event → Fates
  | .transport _ => f
  | .send datagram throws => f.send c datagram throws
  | .flush throws | .close throws => f.flush c throws
  | .dispose throws => f.dispose c throws

end Fates

/-- A channel with the fates of its calls. -/
structure Ledger where
  channel : Channel
  fates : Fates

namespace Ledger

def new (config : Config) (isOpen : Bool) : Ledger where
  channel := PowerDatagramChannel.new config isOpen
  fates := ⟨0, [], [], [], [], [], [], 0⟩

def step (l : Ledger) (e : Event) : Ledger := ⟨PowerDatagramChannel.step l.channel e, l.fates.step l.channel e⟩

end Ledger

/-- Every accepted call has one fate, each counter counts the calls of its fate, what the transport was
handed is what is counted as sent, and `errorCount` counts each failure and each refusal of a size once. -/
structure Exact (l : Ledger) : Prop where
  once : l.fates.all.Perm (List.range l.fates.calls)
  queue : l.channel.queue.length = l.fates.waiting.length
  dropped : l.channel.droppedCount = l.fates.dropped.length
  oversize : l.channel.oversizeCount = l.fates.oversize.length
  handed : l.channel.sentCount = l.channel.handed.length
  sent : l.channel.sentCount = l.fates.sent.length + l.channel.fragmentsSent
  errors : l.channel.errorCount = l.fates.failures + l.fates.oversize.length

/-- No chunk of the call fails at the transport, and nothing that it flushes does. -/
def CountsOnce (l : Ledger) : Event → Prop
  | .transport _ => True
  | .send datagram throws =>
    l.channel.disposed = false → Cuts l.channel.config (frameByteLength datagram) → l.channel.isOpen = true →
      ∀ i < chunkCount l.channel.config datagram, throws i = false
  | .flush throws | .close throws | .dispose throws =>
    l.channel.disposed = false →
      ∀ i < (l.channel.queue.filter (fits l.channel.config)).length, throws i = false

/-- How many failures a step counts twice. -/
def doubled (c : Channel) : Event → ℕ
  | .transport _ => 0
  | .send datagram throws =>
    if c.disposed = false ∧ Cuts c.config (frameByteLength datagram) ∧ c.isOpen = true then
      thrown throws 0 (chunkCount c.config datagram)
    else 0
  | .flush throws | .close throws | .dispose throws =>
    if c.disposed = false then thrown throws 0 (c.queue.filter (fits c.config)).length else 0

/-! ## Counting -/

theorem thrown_succ (throws : ℕ → Bool) (i n : ℕ) :
    thrown throws i (n + 1) = thrown throws (i + 1) n + if throws i = true then 1 else 0 := by
  rw [thrown, List.range'_succ, List.countP_cons]
  rfl

theorem thrown_eq_zero {throws : ℕ → Bool} {n : ℕ} : thrown throws 0 n = 0 ↔ ∀ i < n, throws i = false := by
  rw [thrown, List.countP_eq_zero]
  constructor
  · intro h i hi
    exact Bool.eq_false_of_not_eq_true (h i (List.mem_range'_1.mpr ⟨Nat.zero_le i, by omega⟩))
  · intro h i hi
    rw [h i (by have := (List.mem_range'_1.mp hi).2; omega)]
    exact Bool.false_ne_true

/-- What a step counts twice is nothing exactly when it fails nowhere that counts twice. -/
theorem countsOnce_iff (l : Ledger) (e : Event) : CountsOnce l e ↔ doubled l.channel e = 0 := by
  have hflush : ∀ throws : ℕ → Bool, (l.channel.disposed = false →
      ∀ i < (l.channel.queue.filter (fits l.channel.config)).length, throws i = false) ↔
      (if l.channel.disposed = false then
        thrown throws 0 (l.channel.queue.filter (fits l.channel.config)).length else 0) = 0 := by
    intro throws
    by_cases hopen : l.channel.disposed = false
    · rw [if_pos hopen, thrown_eq_zero, imp_iff_right hopen]
    · rw [if_neg hopen, eq_self, iff_true]
      exact fun h => absurd h hopen
  cases e with
  | transport isOpen => simp [CountsOnce, doubled]
  | send d throws =>
    rw [doubled]
    by_cases hcut : l.channel.disposed = false ∧ Cuts l.channel.config (frameByteLength d) ∧ l.channel.isOpen = true
    · rw [if_pos hcut, thrown_eq_zero]
      exact ⟨fun h => h hcut.1 hcut.2.1 hcut.2.2, fun h _ _ _ => h⟩
    · rw [if_neg hcut, eq_self, iff_true]
      exact fun h₁ h₂ h₃ => absurd ⟨h₁, h₂, h₃⟩ hcut
  | flush throws | close throws | dispose throws => exact hflush throws

/-- The counters are exact but for `extra` failures that `errorCount` counts twice, while the calls of
`hand` are out of the queue. -/
structure Booked (hand : List ℕ) (extra : ℕ) (c : Channel) (f : Fates) : Prop where
  once : ∀ n, hand.count n + f.all.count n = (List.range f.calls).count n
  queue : c.queue.length = f.waiting.length
  dropped : c.droppedCount = f.dropped.length
  oversize : c.oversizeCount = f.oversize.length
  handed : c.sentCount = c.handed.length
  sent : c.sentCount = f.sent.length + c.fragmentsSent
  errors : c.errorCount = f.failures + f.oversize.length + extra

theorem booked_iff_exact (l : Ledger) : Booked [] 0 l.channel l.fates ↔ Exact l := by
  constructor
  · intro h
    exact ⟨List.perm_iff_count.mpr fun n => by simpa using h.once n, h.queue, h.dropped, h.oversize, h.handed,
      h.sent, h.errors⟩
  · intro h
    exact ⟨fun n => by simpa using List.perm_iff_count.mp h.once n, h.queue, h.dropped, h.oversize, h.handed,
      h.sent, h.errors⟩

section
variable {c : Channel} {f : Fates} {extra : ℕ}

/-- The call that is being made is put among those of a fate. -/
theorem count_range_succ (calls n : ℕ) :
    (List.range (calls + 1)).count n = (List.range calls).count n + [calls].count n := by
  rw [List.range_succ, List.count_append]

section
variable (h : Booked [] extra c f)
include h

theorem Booked.dropOldest :
    Booked [] extra (PowerDatagramChannel.dropOldest c) f.dropOldest := by
  unfold PowerDatagramChannel.dropOldest Fates.dropOldest
  have hlen := h.queue
  cases hqueue : c.queue with
  | nil =>
    rw [hqueue] at hlen
    rw [List.length_eq_zero_iff.mp hlen.symm]
    exact h
  | cons oldest rest =>
    rw [hqueue] at hlen
    cases hwaiting : f.waiting with
    | nil =>
      rw [hwaiting] at hlen
      cases hlen
    | cons n waiting =>
      rw [hwaiting] at hlen
      refine ⟨fun m => ?_, Nat.succ.inj hlen, ?_, h.oversize, h.handed, h.sent, h.errors⟩
      · have honce := h.once m
        simp only [Fates.all, List.count_append, List.count_nil, hwaiting] at honce ⊢
        rw [← honce]
        simp only [List.count_cons, List.count_nil]
        omega
      · show c.droppedCount + 1 = _
        rw [h.dropped, List.length_append]
        rfl

theorem Booked.wait (d : Datagram) :
    Booked [] extra (push c d) { f with waiting := f.waiting ++ [f.calls], calls := f.calls + 1 } := by
  refine ⟨fun m => ?_, ?_, h.dropped, h.oversize, h.handed, h.sent, h.errors⟩
  · have honce := h.once m
    rw [count_range_succ]
    simp only [Fates.all, List.count_append] at honce ⊢
    omega
  · show (c.queue ++ [_]).length = _
    rw [List.length_append, List.length_append, h.queue]
    rfl

theorem Booked.drop :
    Booked [] extra { c with droppedCount := c.droppedCount + 1 }
      { f with dropped := f.dropped ++ [f.calls], calls := f.calls + 1 } := by
  refine ⟨fun m => ?_, h.queue, ?_, h.oversize, h.handed, h.sent, h.errors⟩
  · have honce := h.once m
    rw [count_range_succ]
    simp only [Fates.all, List.count_append] at honce ⊢
    omega
  · show c.droppedCount + 1 = _
    rw [h.dropped, List.length_append]
    rfl

theorem Booked.enqueue (d : Datagram) :
    Booked [] extra (PowerDatagramChannel.enqueue c d).1 (f.enqueue c d) := by
  by_cases hroom : c.config.maxQueue ≠ some 0 ∧ HasRoom c
  · have hqueues : PowerDatagramChannel.enqueue c d = (push c d, true) := if_pos hroom
    have hkeeps : (if ¬(c.config.maxQueue ≠ some 0 ∧ HasRoom c) ∧ c.config.maxQueue ≠ some 0 ∧ 0 < c.queue.length
        then f.dropOldest else f) = f := if_neg fun hdrop => hdrop.1 hroom
    rw [Fates.enqueue, hqueues, hkeeps]
    exact h.wait d
  · -- the oldest goes, where there is one
    obtain ⟨c₁, f₁, hc₁, hf₁, h₁⟩ : ∃ c₁ f₁,
        (if c.config.maxQueue ≠ some 0 ∧ 0 < c.queue.length then PowerDatagramChannel.dropOldest c else c) = c₁ ∧
        (if ¬(c.config.maxQueue ≠ some 0 ∧ HasRoom c) ∧ c.config.maxQueue ≠ some 0 ∧ 0 < c.queue.length
          then f.dropOldest else f) = f₁ ∧ Booked [] extra c₁ f₁ := by
      by_cases hold : c.config.maxQueue ≠ some 0 ∧ 0 < c.queue.length
      · exact ⟨_, _, if_pos hold, if_pos ⟨hroom, hold⟩, h.dropOldest⟩
      · exact ⟨_, _, if_neg hold, if_neg fun hdrop => hold hdrop.2, h⟩
    have hqueues : PowerDatagramChannel.enqueue c d =
        if c₁.config.maxQueue ≠ some 0 ∧ HasRoom c₁ then (push c₁ d, true)
        else ({ c₁ with droppedCount := c₁.droppedCount + 1 }, false) := by
      unfold PowerDatagramChannel.enqueue
      rw [if_neg hroom]
      dsimp only
      rw [hc₁]
    rw [Fates.enqueue, hf₁, hqueues]
    by_cases hroom₁ : c₁.config.maxQueue ≠ some 0 ∧ HasRoom c₁
    · rw [if_pos hroom₁]
      exact h₁.wait d
    · rw [if_neg hroom₁]
      exact h₁.drop

end

/-! ## What a call counts -/

/-- What `_sendFragmented` counts for its chunks, from the send `i` on. -/
structure SendsChunks (throws : ℕ → Bool) (i n : ℕ) (acc acc' : Channel × ℕ) : Prop where
  queue : acc'.1.queue = acc.1.queue
  dropped : acc'.1.droppedCount = acc.1.droppedCount
  oversize : acc'.1.oversizeCount = acc.1.oversizeCount
  errors : acc'.1.errorCount = acc.1.errorCount + 2 * thrown throws i n
  sent : acc'.1.sentCount + thrown throws i n = acc.1.sentCount + n
  fragments : acc'.1.fragmentsSent + thrown throws i n = acc.1.fragmentsSent + n
  handed : acc'.1.handed.length + thrown throws i n = acc.1.handed.length + n

theorem sendChunks_counts (throws : ℕ → Bool) (cs : List (List UInt8)) (i : ℕ) (acc : Channel × ℕ) :
    SendsChunks throws i cs.length acc ((cs.zipIdx i).foldl (sendChunk throws) acc) := by
  induction cs generalizing i acc with
  | nil => exact ⟨rfl, rfl, rfl, rfl, rfl, rfl, rfl⟩
  | cons chunk cs ih =>
    obtain ⟨c, k⟩ := acc
    rw [List.zipIdx_cons, List.foldl_cons, List.length_cons]
    have hrest := ih (i + 1) (sendChunk throws (c, k) (chunk, i))
    have hcount := thrown_succ throws i cs.length
    by_cases hthrow : throws i = true
    · have hone : sendChunk throws (c, k) (chunk, i) = ({ c with errorCount := c.errorCount + 2 }, k) :=
        if_pos hthrow
      rw [if_pos hthrow] at hcount
      rw [hone] at hrest ⊢
      obtain ⟨hqueue, hdropped, hoversize, herrors, hsent, hfragments, hhanded⟩ := hrest
      dsimp only at herrors hsent hfragments hhanded
      refine ⟨hqueue, hdropped, hoversize, ?_, ?_, ?_, ?_⟩ <;> dsimp only <;> omega
    · have hone : sendChunk throws (c, k) (chunk, i) =
          ({ c with
              sentCount := c.sentCount + 1
              bytesOut := c.bytesOut + chunk.length
              fragmentsSent := c.fragmentsSent + 1
              handed := c.handed ++ [.binary chunk] }, k + 1) := if_neg hthrow
      rw [if_neg hthrow] at hcount
      rw [hone] at hrest ⊢
      obtain ⟨hqueue, hdropped, hoversize, herrors, hsent, hfragments, hhanded⟩ := hrest
      dsimp only at herrors hsent hfragments hhanded
      rw [List.length_append, List.length_singleton] at hhanded
      refine ⟨hqueue, hdropped, hoversize, ?_, ?_, ?_, ?_⟩ <;> dsimp only <;> omega

theorem Booked.sendFragmented (h : Booked [] extra c f) (hopen : c.isOpen = true) (d : Datagram)
    (throws : ℕ → Bool) :
    Booked [] (extra + thrown throws 0 (chunkCount c.config d))
      (PowerDatagramChannel.sendFragmented c d (frameByteLength d) throws).1
      (if (PowerDatagramChannel.sendFragmented c d (frameByteLength d) throws).2 = true then
        { f with
          failures := f.failures + thrown throws 0 (chunkCount c.config d)
          cut := f.cut ++ [f.calls]
          calls := f.calls + 1 }
      else
        { f with
          failures := f.failures + thrown throws 0 (chunkCount c.config d)
          failed := f.failed ++ [f.calls]
          calls := f.calls + 1 }) := by
  have hcounts := sendChunks_counts throws (chunks c.config (toBytes d) (frameByteLength d)) 0
    ({ c with fragmentedCount := c.fragmentedCount + 1 }, 0)
  have hchannel : (PowerDatagramChannel.sendFragmented c d (frameByteLength d) throws).1 =
      (((chunks c.config (toBytes d) (frameByteLength d)).zipIdx).foldl (sendChunk throws)
        ({ c with fragmentedCount := c.fragmentedCount + 1 }, 0)).1 := by
    rw [PowerDatagramChannel.sendFragmented, if_neg (by rw [hopen]; exact Bool.noConfusion)]
  rw [hchannel]
  obtain ⟨hqueue, hdropped, hoversize, herrors, hsent, hfragments, hhanded⟩ := hcounts
  have herrors₀ := h.errors
  have hsent₀ := h.sent
  have hhanded₀ := h.handed
  rw [← chunkCount] at herrors hsent hfragments hhanded
  dsimp only at herrors hsent hfragments hhanded
  by_cases hall : (PowerDatagramChannel.sendFragmented c d (frameByteLength d) throws).2 = true
  · rw [if_pos hall]
    refine ⟨fun m => ?_, (congrArg List.length hqueue).trans h.queue, hdropped.trans h.dropped, hoversize.trans h.oversize, ?_, ?_, ?_⟩
    · have honce := h.once m
      rw [count_range_succ]
      simp only [Fates.all, List.count_append] at honce ⊢
      omega
    · omega
    · show _ = f.sent.length + _
      omega
    · show _ = f.failures + _ + f.oversize.length + _
      omega
  · rw [if_neg hall]
    refine ⟨fun m => ?_, (congrArg List.length hqueue).trans h.queue, hdropped.trans h.dropped, hoversize.trans h.oversize, ?_, ?_, ?_⟩
    · have honce := h.once m
      rw [count_range_succ]
      simp only [Fates.all, List.count_append] at honce ⊢
      omega
    · omega
    · show _ = f.sent.length + _
      omega
    · show _ = f.failures + _ + f.oversize.length + _
      omega

theorem Booked.flushLoop (throws : ℕ → Bool) (qs : List (ℕ × ℕ × Datagram)) (i : ℕ)
    (h : Booked (qs.map Prod.fst) extra c f) :
    Booked [] (extra + thrown throws i ((qs.map Prod.snd).filter (fits c.config)).length)
      (PowerDatagramChannel.flushLoop throws i (qs.map Prod.snd) c)
      (Fates.flushLoop c.config throws i qs f) := by
  induction qs generalizing i c f extra with
  | nil => exact h
  | cons q qs ih =>
    rw [List.map_cons, PowerDatagramChannel.flushLoop, Fates.flushLoop]
    have honce := h.once
    simp only [List.map_cons, List.count_cons, Fates.all, List.count_append] at honce
    by_cases hlarge : c.config.TooLarge (frameByteLength q.2.2)
    · have hskip : (q.2 :: qs.map Prod.snd).filter (fits c.config) = (qs.map Prod.snd).filter (fits c.config) :=
        List.filter_cons_of_neg (by simpa [fits] using hlarge)
      rw [if_pos hlarge, if_pos hlarge, hskip]
      have hnext : Booked (qs.map Prod.fst) extra
          { c with oversizeCount := c.oversizeCount + 1, errorCount := c.errorCount + 1 }
          { f with oversize := f.oversize ++ [q.1] } := by
        refine ⟨fun m => ?_, h.queue, h.dropped, ?_, h.handed, h.sent, ?_⟩
        · have := honce m
          simp only [Fates.all, List.count_append, List.count_cons, List.count_nil]
          omega
        · show c.oversizeCount + 1 = _
          rw [h.oversize, List.length_append]
          rfl
        · show c.errorCount + 1 = f.failures + (f.oversize ++ [q.1]).length + extra
          rw [h.errors, List.length_append, List.length_singleton]
          omega
      exact ih i hnext
    · have hkeep : (q.2 :: qs.map Prod.snd).filter (fits c.config) =
          q.2 :: (qs.map Prod.snd).filter (fits c.config) :=
        List.filter_cons_of_pos (by simpa [fits] using hlarge)
      rw [if_neg hlarge, if_neg hlarge, hkeep, List.length_cons, thrown_succ]
      by_cases hthrow : throws i = true
      · rw [if_pos hthrow, if_pos hthrow, if_pos hthrow, ← Nat.add_assoc, Nat.add_right_comm]
        have hnext : Booked (qs.map Prod.fst) (extra + 1)
            { c with errorCount := c.errorCount + 2, queue := c.queue ++ [q.2] }
            { f with waiting := f.waiting ++ [q.1], failures := f.failures + 1 } := by
          refine ⟨fun m => ?_, ?_, h.dropped, h.oversize, h.handed, h.sent, ?_⟩
          · have := honce m
            simp only [Fates.all, List.count_append, List.count_cons, List.count_nil]
            omega
          · show (c.queue ++ [q.2]).length = (f.waiting ++ [q.1]).length
            rw [List.length_append, List.length_append, h.queue]
            rfl
          · show c.errorCount + 2 = f.failures + 1 + f.oversize.length + (extra + 1)
            rw [h.errors]
            omega
        exact ih (i + 1) hnext
      · rw [if_neg hthrow, if_neg hthrow, if_neg hthrow, Nat.add_zero]
        have hnext : Booked (qs.map Prod.fst) extra
            { c with
              sentCount := c.sentCount + 1
              bytesOut := c.bytesOut + frameByteLength q.2.2
              handed := c.handed ++ [q.2.2]
              owed := c.owed.filter fun p => !decide (p.1 = q.2.1) }
            { f with sent := f.sent ++ [q.1] } := by
          refine ⟨fun m => ?_, h.queue, h.dropped, h.oversize, ?_, ?_, h.errors⟩
          · have := honce m
            simp only [Fates.all, List.count_append, List.count_cons, List.count_nil]
            omega
          · show c.sentCount + 1 = (c.handed ++ [q.2.2]).length
            rw [h.handed, List.length_append]
            rfl
          · show c.sentCount + 1 = (f.sent ++ [q.1]).length + c.fragmentsSent
            rw [h.sent, List.length_append, List.length_singleton]
            omega
        exact ih (i + 1) hnext

theorem Booked.flush (h : Booked [] extra c f) (throws : ℕ → Bool) :
    Booked [] (extra + if c.disposed = false then thrown throws 0 (c.queue.filter (fits c.config)).length else 0)
      (PowerDatagramChannel.flush c throws) (f.flush c throws) := by
  by_cases hopen : c.disposed = false
  · have hzip₁ : (f.waiting.zip c.queue).map Prod.fst = f.waiting :=
      List.map_fst_zip (Nat.le_of_eq h.queue.symm)
    have hzip₂ : (f.waiting.zip c.queue).map Prod.snd = c.queue :=
      List.map_snd_zip (Nat.le_of_eq h.queue)
    have hstart : Booked ((f.waiting.zip c.queue).map Prod.fst) extra { c with queue := [] }
        { f with waiting := [] } := by
      refine ⟨fun m => ?_, rfl, h.dropped, h.oversize, h.handed, h.sent, h.errors⟩
      have honce := h.once m
      rw [hzip₁]
      simp only [Fates.all, List.count_append, List.count_nil] at honce ⊢
      omega
    have hloop := hstart.flushLoop throws _ 0
    rw [hzip₂] at hloop
    rw [if_pos hopen, PowerDatagramChannel.flush, Fates.flush, if_neg (by rw [hopen]; exact Bool.noConfusion),
      if_neg (by rw [hopen]; exact Bool.noConfusion)]
    exact hloop
  · have hclosed : c.disposed = true := Bool.eq_true_of_not_eq_false hopen
    rw [if_neg hopen, PowerDatagramChannel.flush, Fates.flush, if_pos hclosed, if_pos hclosed]
    exact h

/-- A datagram that is cut goes to `_sendFragmented`, whichever check finds it. -/
theorem send_of_cuts {d : Datagram} (hopen : c.disposed = false) (hcut : Cuts c.config (frameByteLength d))
    (throws : ℕ → Bool) :
    (PowerDatagramChannel.send c d throws).1 =
      (PowerDatagramChannel.sendFragmented c d (frameByteLength d) throws).1 := by
  rw [PowerDatagramChannel.send, hopen, if_neg Bool.false_ne_true]
  by_cases hlarge : c.config.TooLarge (frameByteLength d)
  · rw [if_pos hlarge, if_pos hcut.1]
  · have hsize := hcut.2.resolve_left hlarge
    rw [if_neg hlarge, if_pos ⟨hcut.1, hsize⟩]

/-- A datagram that is not cut is refused by its size, or goes the short way. -/
theorem send_of_not_cuts {d : Datagram} (hopen : c.disposed = false)
    (hcut : ¬Cuts c.config (frameByteLength d)) (throws : ℕ → Bool) :
    (PowerDatagramChannel.send c d throws).1 =
      if c.config.TooLarge (frameByteLength d) then
        { c with oversizeCount := c.oversizeCount + 1, errorCount := c.errorCount + 1 }
      else if c.isOpen = false then (PowerDatagramChannel.enqueue c d).1
      else if throws 0 = true then { c with errorCount := c.errorCount + 1 }
      else
        { c with
          sentCount := c.sentCount + 1
          bytesOut := c.bytesOut + frameByteLength d
          handed := c.handed ++ [d] } := by
  rw [PowerDatagramChannel.send, hopen, if_neg Bool.false_ne_true]
  by_cases hlarge : c.config.TooLarge (frameByteLength d)
  · have hwhole : ¬Fragments c.config := fun hf => hcut ⟨hf, Or.inl hlarge⟩
    rw [if_pos hlarge, if_pos hlarge, if_neg hwhole]
  · rw [if_neg hlarge, if_neg hlarge, if_neg fun hsize => hcut ⟨hsize.1, Or.inr hsize.2⟩]
    by_cases hready : c.isOpen = false
    · rw [if_pos hready, if_pos hready]
    · rw [if_neg hready, if_neg hready]
      by_cases hthrow : throws 0 = true
      · rw [if_pos hthrow, if_pos hthrow]
      · rw [if_neg hthrow, if_neg hthrow]

theorem sendFragmented_closed (hready : c.isOpen = false) (d : Datagram) (size : ℕ) (throws : ℕ → Bool) :
    PowerDatagramChannel.sendFragmented c d size throws = PowerDatagramChannel.enqueue c d := if_pos hready

theorem Booked.send (h : Booked [] extra c f) (d : Datagram) (throws : ℕ → Bool) :
    Booked [] (extra + doubled c (.send d throws)) (PowerDatagramChannel.send c d throws).1
      (f.send c d throws) := by
  rw [doubled, Fates.send]
  by_cases hopen : c.disposed = false
  swap
  · have hclosed : c.disposed = true := Bool.eq_true_of_not_eq_false hopen
    have hsame : (PowerDatagramChannel.send c d throws).1 = c := by
      rw [PowerDatagramChannel.send, if_pos hclosed]
    rw [hsame, if_pos hclosed, if_neg fun hall => hopen hall.1]
    exact h
  have hlive : ¬c.disposed = true := by rw [hopen]; exact Bool.false_ne_true
  dsimp only
  rw [if_neg hlive]
  by_cases hcut : Cuts c.config (frameByteLength d)
  · rw [send_of_cuts hopen hcut, if_pos hcut]
    by_cases hready : c.isOpen = false
    · rw [sendFragmented_closed hready, if_pos hready,
        if_neg fun hall => by rw [hready] at hall; exact Bool.false_ne_true hall.2.2]
      exact h.enqueue d
    · have hready' : c.isOpen = true := Bool.eq_true_of_not_eq_false hready
      rw [if_neg hready, if_pos ⟨hopen, hcut, hready'⟩]
      exact h.sendFragmented hready' d throws
  · rw [send_of_not_cuts hopen hcut, if_neg hcut, if_neg fun hall => hcut hall.2.1, Nat.add_zero]
    by_cases hlarge : c.config.TooLarge (frameByteLength d)
    · rw [if_pos hlarge, if_pos hlarge]
      refine ⟨fun m => ?_, h.queue, h.dropped, ?_, h.handed, h.sent, ?_⟩
      · have honce := h.once m
        rw [count_range_succ]
        simp only [Fates.all, List.count_append] at honce ⊢
        omega
      · show c.oversizeCount + 1 = _
        rw [h.oversize, List.length_append]
        rfl
      · show c.errorCount + 1 = f.failures + (f.oversize ++ [f.calls]).length + extra
        rw [h.errors, List.length_append, List.length_singleton]
        omega
    · rw [if_neg hlarge, if_neg hlarge]
      by_cases hready : c.isOpen = false
      · rw [if_pos hready, if_pos hready]
        exact h.enqueue d
      · rw [if_neg hready, if_neg hready]
        by_cases hthrow : throws 0 = true
        · rw [if_pos hthrow, if_pos hthrow]
          refine ⟨fun m => ?_, h.queue, h.dropped, h.oversize, h.handed, h.sent, ?_⟩
          · have honce := h.once m
            rw [count_range_succ]
            simp only [Fates.all, List.count_append] at honce ⊢
            omega
          · show c.errorCount + 1 = f.failures + 1 + f.oversize.length + extra
            rw [h.errors]
            omega
        · rw [if_neg hthrow, if_neg hthrow]
          refine ⟨fun m => ?_, h.queue, h.dropped, h.oversize, ?_, ?_, h.errors⟩
          · have honce := h.once m
            rw [count_range_succ]
            simp only [Fates.all, List.count_append] at honce ⊢
            omega
          · show c.sentCount + 1 = (c.handed ++ [d]).length
            rw [h.handed, List.length_append]
            rfl
          · show c.sentCount + 1 = (f.sent ++ [f.calls]).length + c.fragmentsSent
            rw [h.sent, List.length_append, List.length_singleton]
            omega

theorem Booked.dispose (h : Booked [] extra c f) (throws : ℕ → Bool) :
    Booked [] (extra + doubled c (.dispose throws)) (PowerDatagramChannel.dispose c throws)
      (f.dispose c throws) := by
  have hflush := h.flush throws
  rw [PowerDatagramChannel.dispose, Fates.dispose]
  by_cases hclosed : c.disposed = true
  · rw [if_pos hclosed, if_pos hclosed, doubled, if_neg (by rw [hclosed]; exact Bool.noConfusion)]
    exact h
  · rw [if_neg hclosed, if_neg hclosed]
    refine ⟨fun m => ?_, rfl, hflush.dropped, hflush.oversize, hflush.handed, hflush.sent, hflush.errors⟩
    have honce := hflush.once m
    simp only [Fates.all, List.count_append, List.count_nil] at honce ⊢
    omega

theorem Booked.close (h : Booked [] extra c f) (throws : ℕ → Bool) :
    Booked [] (extra + doubled c (.close throws)) (PowerDatagramChannel.close c throws)
      (f.flush c throws) := by
  have hflush := h.flush throws
  rw [PowerDatagramChannel.close]
  by_cases hclosed : c.disposed = true
  · have hsame : PowerDatagramChannel.flush c throws = c := if_pos hclosed
    rw [hsame] at hflush
    rw [if_pos hclosed]
    exact hflush
  · rw [if_neg hclosed]
    exact { hflush with }

end

/-- What a step counts twice is all that it adds to the error in `errorCount`. -/
theorem Booked.step {l : Ledger} {extra : ℕ} (h : Booked [] extra l.channel l.fates) (e : Event) :
    Booked [] (extra + doubled l.channel e) (l.step e).channel (l.step e).fates := by
  cases e with
  | transport isOpen => exact { h with }
  | send d throws => exact h.send d throws
  | flush throws => exact h.flush throws
  | close throws => exact h.close throws
  | dispose throws => exact h.dispose throws

/-- In every run, each accepted call has one fate (sent, cut, waiting, dropped, too large or failed), the
counters count the fates, and `errorCount` counts each transport failure and each refusal of a size once,
exactly when no chunk and no flushed datagram of the run fails at the transport. -/
theorem counts_iff (config : Config) (isOpen : Bool) (es : List Event) :
    Always Ledger.step Exact (Ledger.new config isOpen) es ↔
      Meets Ledger.step CountsOnce (Ledger.new config isOpen) es := by
  have hstart : Booked [] 0 (Ledger.new config isOpen).channel (Ledger.new config isOpen).fates :=
    ⟨fun _ => rfl, rfl, rfl, rfl, rfl, rfl, rfl⟩
  have hinv : ∀ (l : Ledger) (e : Event), (∃ extra, Booked [] extra l.channel l.fates) →
      ∃ extra, Booked [] extra (l.step e).channel (l.step e).fates :=
    fun l e ⟨extra, h⟩ => ⟨extra + doubled l.channel e, h.step e⟩
  refine always_iff_meets hinv (fun l e _ hexact => ?_) ⟨0, hstart⟩ ((booked_iff_exact _).mp hstart)
  rw [countsOnce_iff]
  have hstep := ((booked_iff_exact l).mpr hexact).step e
  rw [Nat.zero_add] at hstep
  constructor
  · intro h
    have hone := hstep.errors
    rw [h.errors] at hone
    omega
  · intro hnone
    rw [hnone] at hstep
    exact (booked_iff_exact _).mp hstep

/-- A queued datagram that fails once in a flush, and a chunk that fails, are each counted twice. -/
theorem failures_counted_twice :
    let queued := run Ledger.step (Ledger.new ⟨65535, some 64, some 0⟩ false)
      [.send (.binary [1]) fun _ => false, .flush fun _ => true]
    let cut := run Ledger.step (Ledger.new ⟨65535, some 64, some 2⟩ true) [.send (.binary [1, 2, 3]) (· = 0)]
    (queued.channel.errorCount = 2 ∧ queued.fates.failures = 1 ∧ queued.fates.oversize = [] ∧ ¬Exact queued) ∧
      cut.channel.errorCount = 2 ∧ cut.fates.failures = 1 ∧ cut.fates.oversize = [] ∧ ¬Exact cut := by
  refine ⟨⟨by decide +kernel, by decide +kernel, by decide +kernel, fun h => ?_⟩, by decide +kernel,
    by decide +kernel, by decide +kernel, fun h => ?_⟩
  · exact absurd h.errors (by decide +kernel)
  · exact absurd h.errors (by decide +kernel)

end PerformanceHelpers.PowerDatagramChannel
