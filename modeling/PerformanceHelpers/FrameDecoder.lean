import PerformanceHelpers.MessageCodec
import PerformanceHelpers.Number
import PerformanceHelpers.Options

/- `createFrameDecoder` (`src/helpers/powerMessageCodec.js`): frames out of a stream of bytes
   that comes in chunks.

   The bytes that wait are those between two cursors of one buffer, which is compacted or
   grown when a chunk does not fit behind them. A `raw` value is what its bytes are when the
   push returns: with `rawAsBytes` it is a view, and good until the next push. Memory is not
   limited.

   What is proved:
     1. `reserve_spec` — making room keeps the bytes that wait.
     2. `push_parsed` — a push takes out the frames in front of the bytes that wait, and stops at
        a part of a frame or at one that is refused (`nextFrame`).
     3. `feed_frames` — however a row of frames and a part of a frame is cut into chunks, the
        pushes give what decoding each frame gives, in order, and the part is left. -/
namespace PerformanceHelpers.FrameDecoder

open MessageCodec

variable {V : Type}

/-- `INITIAL_BYTES`. -/
def initialBytes : ℕ := 1024

structure Decoder where
  buf : List UInt8
  start : ℕ
  stop : ℕ
  /-- `none` is `Infinity`. -/
  maxFrameBytes : Option ℕ
  strict : Bool
  deriving DecidableEq

/-- The options, without `rawAsBytes`, which says where the bytes of a value are. -/
structure Options where
  maxFrameBytes : Option Number := none
  strict : Bool := true

def className : String := "PowerMessageCodec.createFrameDecoder"

/-- The check of `maxFrameBytes`. -/
def assertMaxFrameBytes (value : Option Number) : Except String (Option ℕ) :=
  match value with
  | none => .error ("PowerMessageCodec: createFrameDecoder() requires `maxFrameBytes`. A frame declares " ++
      "its own payload length, so a peer that sends a header and then stops would pin this " ++
      "buffer at whatever size it named. Pass `Infinity` to accept that risk explicitly.")
  | some .infinity => .ok none
  | some (.finite q) =>
    if q.den ≠ 1 then
      .error (s!"{className}: `maxFrameBytes` must be a whole number (received {q}). " ++
        "A fractional limit is silently rounded up by the first consumer, so it " ++
        "admits more than the number that was configured.")
    else (fun n => some n.num.toNat) <$> assertLimitRequired (some q) "maxFrameBytes" className headerBytes 0
  | some value => .error (s!"{className}: `maxFrameBytes` must be a finite number (received {value}). " ++
      "A non-finite limit would silently disable the check it guards.")

def new (o : Options) : Except String Decoder := do
  let maxFrameBytes ← assertMaxFrameBytes o.maxFrameBytes
  pure { buf := List.replicate initialBytes 0, start := 0, stop := 0, maxFrameBytes, strict := o.strict }

/-- `buf.subarray(start, end)`: the bytes that wait. -/
def pending (d : Decoder) : List UInt8 := (d.buf.drop d.start).take (d.stop - d.start)

/-- `while (capacity < need) capacity *= 2`, which doubles no more than `need` times. -/
def doubledTo (need : ℕ) : ℕ → ℕ → ℕ
  | 0, capacity => capacity
  | turns + 1, capacity => if capacity < need then doubledTo need turns (capacity * 2) else capacity

def reserve (d : Decoder) (incoming : ℕ) : Decoder :=
  let live := d.stop - d.start
  if d.stop + incoming ≤ d.buf.length then d
  else
    let buf :=
      if live + incoming ≤ d.buf.length then pending d ++ d.buf.drop live
      else
        let capacity := doubledTo (live + incoming) (live + incoming)
          (if d.buf.length = 0 then initialBytes else d.buf.length)
        pending d ++ List.replicate (capacity - live) 0
    { d with buf, start := 0, stop := live }

/-- `buf.set(bytes, end)`. -/
def write (d : Decoder) (bytes : List UInt8) : Decoder :=
  { d with
    buf := d.buf.take d.stop ++ bytes ++ d.buf.drop (d.stop + bytes.length)
    stop := d.stop + bytes.length }

def overLimit (d : Decoder) (bytes : ℕ) : Bool := d.maxFrameBytes.any (decide <| · < bytes)

def limitError (d : Decoder) (bytes : ℕ) : String :=
  s!"PowerMessageCodec: frame declares {bytes} bytes, over the " ++
    s!"maxFrameBytes limit of {d.maxFrameBytes.getD 0}"

/-- The loop of `push`. Every turn takes a header's bytes at least. -/
def pushLoop (T : JsonText V) : ℕ → Decoder → List (Decoded V) → Decoder × Except String (List (Decoded V))
  | 0, d, frames => (d, .ok frames)
  | turns + 1, d, frames =>
    if d.stop - d.start < headerBytes then (d, .ok frames)
    else
      let declared := readLength (d.buf.drop d.start)
      if overLimit d (headerBytes + declared) then (d, .error (limitError d (headerBytes + declared)))
      else if d.stop - d.start < headerBytes + declared then (d, .ok frames)
      else
        match decodeMessage T (pending d) d.strict with
        | .error e => (d, .error e)
        | .ok frame => pushLoop T turns { d with start := d.start + frame.byteLength } (frames ++ [frame])

def rewind (d : Decoder) : Decoder := if d.start = d.stop then { d with start := 0, stop := 0 } else d

def push (T : JsonText V) (d : Decoder) (chunk : List UInt8) : Decoder × Except String (List (Decoded V)) :=
  let d := write (reserve d chunk.length) chunk
  match pushLoop T (d.stop - d.start) d [] with
  | (d, .error e) => (d, .error e)
  | (d, .ok frames) => (rewind d, .ok frames)

def pendingBytes (d : Decoder) : ℕ := d.stop - d.start

def flush (d : Decoder) (strict : Bool) : Except String (List UInt8) :=
  let buffered := d.stop - d.start
  if 0 < buffered ∧ strict then
    let declared := readLength (d.buf.drop d.start)
    .error <|
      if buffered < headerBytes then
        s!"PowerMessageCodec: stream ended mid-frame — {buffered} of {headerBytes} bytes buffered" ++
          ", not even a whole header"
      else s!"PowerMessageCodec: stream ended mid-frame — {buffered} of {headerBytes + declared} bytes buffered"
  else .ok (pending d)

def reset (d : Decoder) : Decoder := { d with start := 0, stop := 0 }

def dispose (d : Decoder) : Decoder := { reset d with buf := [] }

/-- One push after the other, up to one that throws, and what they return. -/
def feed (T : JsonText V) : Decoder → List (List UInt8) → Decoder × Except String (List (Decoded V))
  | d, [] => (d, .ok [])
  | d, chunk :: chunks =>
    match push T d chunk with
    | (d, .error e) => (d, .error e)
    | (d, .ok frames) =>
      match feed T d chunks with
      | (d, .error e) => (d, .error e)
      | (d, .ok rest) => (d, .ok (frames ++ rest))

/-! ## The buffer -/

/-- The cursors are in the buffer, and in order. -/
structure Fits (d : Decoder) : Prop where
  start_le : d.start ≤ d.stop
  stop_le : d.stop ≤ d.buf.length

theorem fits_new {o : Options} {d : Decoder} (h : new o = .ok d) :
    Fits d ∧ pending d = [] ∧ d.strict = o.strict := by
  obtain ⟨maxFrameBytes, -, h⟩ := bind_eq_ok.mp h
  cases h
  exact ⟨⟨le_rfl, Nat.zero_le _⟩, rfl, rfl⟩

section
variable {d : Decoder} {chunk : List UInt8}

theorem Fits.length_pending (h : Fits d) : (pending d).length = d.stop - d.start := by
  have := h.stop_le
  simp only [pending, List.length_take, List.length_drop]
  omega

theorem le_doubledTo (need turns capacity : ℕ) (hpos : 0 < capacity) (h : need ≤ capacity + turns) :
    need ≤ doubledTo need turns capacity := by
  induction turns generalizing capacity with
  | zero => exact h
  | succ turns ih =>
    rw [doubledTo]
    split
    · exact ih (capacity * 2) (by omega) (by omega)
    · omega

structure Same (d d' : Decoder) : Prop where
  maxFrameBytes : d'.maxFrameBytes = d.maxFrameBytes
  strict : d'.strict = d.strict

/-- Room is made, and the bytes that wait are kept. -/
theorem reserve_spec (h : Fits d) (incoming : ℕ) :
    Fits (reserve d incoming) ∧ (reserve d incoming).stop + incoming ≤ (reserve d incoming).buf.length ∧
      pending (reserve d incoming) = pending d ∧ Same d (reserve d incoming) := by
  have hlength := h.length_pending
  have hstart := h.start_le
  have hstop := h.stop_le
  unfold reserve
  dsimp only
  split
  · next hroom => exact ⟨h, hroom, rfl, ⟨rfl, rfl⟩⟩
  · next hfull =>
    -- the bytes that wait are the first of the new buffer
    have hkept : ∀ rest : List UInt8, pending { d with
        buf := pending d ++ rest, start := 0, stop := d.stop - d.start } = pending d := by
      intro rest
      simp only [pending, List.drop_zero, Nat.sub_zero]
      rw [List.take_append_of_le_length (by rw [← pending, hlength]), ← pending, ← hlength, List.take_length]
    refine ⟨⟨Nat.zero_le _, ?_⟩, ?_, ?_, ⟨rfl, rfl⟩⟩
    · dsimp only
      split
      · rw [List.length_append, hlength]
        omega
      · rw [List.length_append, hlength]
        omega
    · dsimp only
      split
      · next hcompact =>
        rw [List.length_append, hlength, List.length_drop]
        omega
      · next hgrow =>
        have hdoubled := le_doubledTo (d.stop - d.start + incoming) (d.stop - d.start + incoming)
          (if d.buf.length = 0 then initialBytes else d.buf.length) (by split <;> [decide; omega]) (by omega)
        rw [List.length_append, hlength, List.length_replicate]
        omega
    · split
      · exact hkept _
      · exact hkept _

theorem write_spec (h : Fits d) (hroom : d.stop + chunk.length ≤ d.buf.length) :
    Fits (write d chunk) ∧ pending (write d chunk) = pending d ++ chunk ∧ Same d (write d chunk) := by
  have hstart := h.start_le
  refine ⟨⟨?_, ?_⟩, ?_, ⟨rfl, rfl⟩⟩
  · simp only [write]
    omega
  · simp only [write, List.length_append, List.length_take, List.length_drop]
    omega
  · have htake : (d.buf.take d.stop).drop d.start = pending d := by
      rw [List.drop_take]
      rfl
    have hlength := h.length_pending
    simp only [pending, write]
    rw [List.append_assoc, List.drop_append_of_le_length (by simp only [List.length_take]; omega), htake,
      ← List.append_assoc, List.take_append_of_le_length (by rw [List.length_append]; omega)]
    rw [show d.stop + chunk.length - d.start = (pending d ++ chunk).length by
      rw [List.length_append]; omega, List.take_length]
    rfl

end

/-! ## What a push takes out -/

/-- What the loop of `push` makes of the bytes that wait. -/
inductive Next (V : Type) where
  | waits
  | fails (error : String)
  | takes (frame : Decoded V)

def nextFrame (T : JsonText V) (d : Decoder) (bytes : List UInt8) : Next V :=
  if bytes.length < headerBytes then .waits
  else if overLimit d (headerBytes + readLength bytes) then .fails (limitError d (headerBytes + readLength bytes))
  else if bytes.length < headerBytes + readLength bytes then .waits
  else match decodeMessage T bytes d.strict with
    | .error e => .fails e
    | .ok frame => .takes frame

inductive Parsed (T : JsonText V) (d : Decoder) :
    List UInt8 → List (Decoded V) → List UInt8 → Option String → Prop where
  | waits (bytes : List UInt8) (h : nextFrame T d bytes = .waits) : Parsed T d bytes [] bytes none
  | fails (bytes : List UInt8) (e : String) (h : nextFrame T d bytes = .fails e) :
    Parsed T d bytes [] bytes (some e)
  | takes (bytes : List UInt8) (frame : Decoded V) (h : nextFrame T d bytes = .takes frame)
    (frames : List (Decoded V)) (rest : List UInt8) (e : Option String)
    (hrest : Parsed T d (bytes.drop frame.byteLength) frames rest e) :
    Parsed T d bytes (frame :: frames) rest e

def outcome (frames : List (Decoded V)) : Option String → Except String (List (Decoded V))
  | none => .ok frames
  | some e => .error e

section
variable {T : JsonText V} {d d' : Decoder} {bytes rest : List UInt8} {frames : List (Decoded V)}
  {e : Option String}

theorem readLength_buf (h : headerBytes ≤ (pending d).length) :
    readLength (d.buf.drop d.start) = readLength (pending d) := by
  have hsplit := List.take_append_drop (d.stop - d.start) (d.buf.drop d.start)
  rw [← pending] at hsplit
  rw [← hsplit, readLength_append h]

theorem nextFrame_nil (T : JsonText V) (d : Decoder) : nextFrame T d [] = .waits := if_pos (by decide)

theorem nextFrame_congr (h : Same d d') : nextFrame T d' = nextFrame T d := by
  funext bytes
  unfold nextFrame overLimit limitError
  rw [h.maxFrameBytes, h.strict]

theorem Parsed.congr (h : Parsed T d' bytes frames rest e) (hsame : Same d d') :
    Parsed T d bytes frames rest e := by
  have hnext := nextFrame_congr (T := T) hsame
  induction h with
  | waits bytes h => exact Parsed.waits bytes (hnext ▸ h)
  | fails bytes e h => exact Parsed.fails bytes e (hnext ▸ h)
  | takes bytes frame h frames rest e _ ih => exact Parsed.takes bytes frame (hnext ▸ h) frames rest e ih

/-- A frame that is taken out is as long as its header says, and all there. -/
theorem byteLength_of_takes {frame : Decoded V} (h : nextFrame T d bytes = .takes frame) :
    frame.byteLength = headerBytes + readLength bytes ∧ frame.byteLength ≤ bytes.length := by
  unfold nextFrame at h
  split at h
  · cases h
  split at h
  · cases h
  split at h
  · cases h
  · next hwhole =>
    split at h
    · cases h
    · next frame' hdecoded =>
      cases h
      obtain ⟨-, -, -, codec, value, -, -, rfl⟩ := decodeMessage_eq_ok.mp hdecoded
      exact ⟨rfl, Nat.not_lt.mp hwhole⟩

theorem pushLoop_parsed (turns : ℕ) (acc : List (Decoded V)) (hfits : Fits d)
    (hturns : (pending d).length ≤ turns) :
    ∃ frames rest e d', Parsed T d (pending d) frames rest e ∧ Fits d' ∧ Same d d' ∧ pending d' = rest ∧
      pushLoop T turns d acc = (d', outcome (acc ++ frames) e) := by
  induction turns generalizing d acc with
  | zero =>
    have hempty : pending d = [] := List.eq_nil_of_length_eq_zero (Nat.le_zero.mp hturns)
    refine ⟨[], [], none, d, ?_, hfits, ⟨rfl, rfl⟩, hempty, by rw [pushLoop, List.append_nil]; rfl⟩
    rw [hempty]
    exact Parsed.waits [] rfl
  | succ turns ih =>
    have hlength := hfits.length_pending
    by_cases hheader : (pending d).length < headerBytes
    · have hnext : nextFrame T d (pending d) = .waits := if_pos hheader
      refine ⟨[], _, none, d, Parsed.waits _ hnext, hfits, ⟨rfl, rfl⟩, rfl, ?_⟩
      rw [pushLoop, if_pos (by omega), List.append_nil]
      rfl
    have hread := readLength_buf (d := d) (Nat.not_lt.mp hheader)
    by_cases hover : overLimit d (headerBytes + readLength (pending d)) = true
    · have hnext : nextFrame T d (pending d) = .fails (limitError d (headerBytes + readLength (pending d))) := by
        rw [nextFrame, if_neg hheader, if_pos hover]
      refine ⟨[], _, some _, d, Parsed.fails _ _ hnext, hfits, ⟨rfl, rfl⟩, rfl, ?_⟩
      rw [pushLoop, if_neg (by omega)]
      dsimp only
      rw [hread, if_pos hover]
      rfl
    by_cases hshort : (pending d).length < headerBytes + readLength (pending d)
    · have hnext : nextFrame T d (pending d) = .waits := by
        rw [nextFrame, if_neg hheader, if_neg hover, if_pos hshort]
      refine ⟨[], _, none, d, Parsed.waits _ hnext, hfits, ⟨rfl, rfl⟩, rfl, ?_⟩
      rw [pushLoop, if_neg (by omega)]
      dsimp only
      rw [hread, if_neg hover, if_pos (by omega), List.append_nil]
      rfl
    have hnext := nextFrame.eq_def T d (pending d)
    rw [if_neg hheader, if_neg hover, if_neg hshort] at hnext
    cases hdecoded : decodeMessage T (pending d) d.strict with
    | error e =>
      rw [hdecoded] at hnext
      refine ⟨[], _, some e, d, Parsed.fails _ _ hnext, hfits, ⟨rfl, rfl⟩, rfl, ?_⟩
      rw [pushLoop, if_neg (by omega)]
      dsimp only
      rw [hread, if_neg hover, if_neg (by omega), hdecoded]
      rfl
    | ok frame =>
      rw [hdecoded] at hnext
      obtain ⟨hbytes, hle⟩ := byteLength_of_takes hnext
      have hpos : 0 < frame.byteLength := by
        rw [hbytes]
        exact Nat.add_pos_left (by decide) _
      have hdrop : pending { d with start := d.start + frame.byteLength } =
          (pending d).drop frame.byteLength := by
        simp only [pending]
        rw [List.drop_take, List.drop_drop]
        congr 1
        omega
      have hfits' : Fits { d with start := d.start + frame.byteLength } := by
        refine ⟨?_, hfits.stop_le⟩
        have hstart := hfits.start_le
        dsimp only
        omega
      obtain ⟨frames, rest, e, d', hparsed, hfits'', hsame, hpending, hloop⟩ :=
        ih (d := { d with start := d.start + frame.byteLength }) (acc ++ [frame]) hfits'
          (by rw [hdrop, List.length_drop]; omega)
      rw [hdrop] at hparsed
      refine ⟨frame :: frames, rest, e, d', Parsed.takes _ frame hnext _ _ _ ?_, hfits'',
        ⟨hsame.maxFrameBytes, hsame.strict⟩, hpending, ?_⟩
      · exact hparsed.congr ⟨rfl, rfl⟩
      · rw [pushLoop, if_neg (by omega)]
        dsimp only
        rw [hread, if_neg hover, if_neg (by omega), hdecoded]
        dsimp only
        rw [hloop, List.append_assoc]
        rfl

theorem rewind_spec (h : Fits d) : Fits (rewind d) ∧ pending (rewind d) = pending d ∧ Same d (rewind d) := by
  unfold rewind
  split
  · next heq =>
    refine ⟨⟨le_rfl, Nat.zero_le _⟩, ?_, ⟨rfl, rfl⟩⟩
    simp [pending, heq]
  · exact ⟨h, rfl, ⟨rfl, rfl⟩⟩

theorem push_parsed (hfits : Fits d) (T : JsonText V) (chunk : List UInt8) :
    ∃ frames rest e d', Parsed T d (pending d ++ chunk) frames rest e ∧ Fits d' ∧ Same d d' ∧
      pending d' = rest ∧ push T d chunk = (d', outcome frames e) := by
  obtain ⟨hroomy, hroom, hkept, hsame⟩ := reserve_spec hfits chunk.length
  obtain ⟨hwritten, hpending, hsame'⟩ := write_spec hroomy hroom
  rw [hkept] at hpending
  have hsame'' : Same d (write (reserve d chunk.length) chunk) :=
    ⟨hsame'.maxFrameBytes.trans hsame.maxFrameBytes, hsame'.strict.trans hsame.strict⟩
  obtain ⟨frames, rest, e, d', hparsed, hfits', hlooped, hleft, hloop⟩ :=
    pushLoop_parsed (T := T) _ [] hwritten hwritten.length_pending.le
  rw [hpending] at hparsed
  have hparsed := hparsed.congr hsame''
  have hconfig : Same d d' :=
    ⟨hlooped.maxFrameBytes.trans hsame''.maxFrameBytes, hlooped.strict.trans hsame''.strict⟩
  rw [List.nil_append] at hloop
  cases e with
  | some e =>
    refine ⟨frames, rest, some e, d', hparsed, hfits', hconfig, hleft, ?_⟩
    unfold push
    dsimp only
    rw [hloop]
    rfl
  | none =>
    obtain ⟨hrewound, hrewound', hsame⟩ := rewind_spec hfits'
    refine ⟨frames, rest, none, rewind d', hparsed, hrewound, ?_, hrewound'.trans hleft, ?_⟩
    · exact ⟨hsame.maxFrameBytes.trans hconfig.maxFrameBytes, hsame.strict.trans hconfig.strict⟩
    · unfold push
      dsimp only
      rw [hloop]
      rfl

/-- What is left is the end of what was there, and no frame is in front of it. -/
theorem Parsed.left (h : Parsed T d bytes frames rest e) :
    rest.length ≤ bytes.length ∧ (e = none → nextFrame T d rest = .waits) ∧
      ∀ m ∈ e, nextFrame T d rest = .fails m := by
  induction h with
  | waits bytes h =>
    refine ⟨le_rfl, fun _ => h, ?_⟩
    rintro m ⟨⟩
  | fails bytes e h =>
    refine ⟨le_rfl, ?_, ?_⟩
    · rintro ⟨⟩
    · rintro m ⟨⟩
      exact h
  | takes bytes frame h frames rest e _ ih =>
    refine ⟨ih.1.trans ?_, ih.2⟩
    rw [List.length_drop]
    omega

/-- A frame that is all there is decoded the same with more bytes behind it. -/
theorem decodeMessage_whole (T : JsonText V) (strict : Bool) (hwhole : headerBytes + readLength bytes ≤ bytes.length)
    (more : List UInt8) : decodeMessage T (bytes ++ more) strict = decodeMessage T bytes strict := by
  have hheader : headerBytes ≤ bytes.length := by omega
  have hread := readLength_append hheader more
  have hfirst : ∀ i < headerBytes, (bytes ++ more).getD i 0 = bytes.getD i 0 := fun i hi =>
    List.getD_append _ _ _ _ (Nat.lt_of_lt_of_le hi hheader)
  have hpayload : ((bytes ++ more).drop headerBytes).take (readLength bytes) =
      (bytes.drop headerBytes).take (readLength bytes) := by
    rw [List.drop_append_of_le_length hheader, List.take_append_of_le_length]
    rw [List.length_drop]
    omega
  have hheader' : ¬(bytes ++ more).length < headerBytes := by
    rw [List.length_append]
    omega
  have hwhole' : ¬(bytes ++ more).length < headerBytes + readLength bytes := by
    rw [List.length_append]
    omega
  unfold decodeMessage
  rw [hread, hfirst 0 (by decide), hfirst 1 (by decide), if_neg hheader', if_neg (Nat.not_lt.mpr hheader)]
  dsimp only
  split
  · rfl
  · cases codecById (bytes.getD 1 0) with
    | none => rfl
    | some codec => simp only [Nat.not_lt.mpr hwhole, if_false, hpayload]

end

/-! ## The frames of a stream -/

/-- A whole v1 frame within the limit, and what it decodes to. -/
structure ValidFrame (T : JsonText V) (maxFrameBytes : Option ℕ) (bytes : List UInt8) (r : Decoded V) : Prop where
  decodes : decodeMessage T bytes true = .ok r
  whole : r.byteLength = bytes.length
  within : ∀ limit ∈ maxFrameBytes, bytes.length ≤ limit

def Unfinished (T : JsonText V) (maxFrameBytes : Option ℕ) (bytes : List UInt8) : Prop :=
  ∃ g r, ValidFrame T maxFrameBytes g r ∧ bytes <+: g ∧ bytes.length < g.length

/-- A whole frame that a decoder takes, and what it decodes to. -/
structure GoodFrame (T : JsonText V) (d : Decoder) (bytes : List UInt8) (r : Decoded V) : Prop where
  decodes : decodeMessage T bytes d.strict = .ok r
  whole : r.byteLength = bytes.length
  within : overLimit d bytes.length = false

section
variable {T : JsonText V} {d d' : Decoder} {bytes more tail p rest : List UInt8} {r : Decoded V}
  {limit : Option ℕ} {frames : List (List UInt8)} {rs out : List (Decoded V)} {e : Option String}

theorem ValidFrame.length_eq (h : ValidFrame T limit bytes r) :
    headerBytes ≤ bytes.length ∧ headerBytes + readLength bytes = bytes.length := by
  obtain ⟨hheader, -, -, codec, value, -, -, rfl⟩ := decodeMessage_eq_ok.mp h.decodes
  exact ⟨hheader, h.whole⟩

theorem ValidFrame.not_overLimit (h : ValidFrame T limit bytes r) (hlimit : d.maxFrameBytes = limit) :
    overLimit d bytes.length = false := by
  have hwithin := h.within
  cases hmax : d.maxFrameBytes with
  | none => simp [overLimit, hmax]
  | some m => simpa [overLimit, hmax] using hwithin m (hlimit ▸ hmax)

theorem ValidFrame.good (h : ValidFrame T limit bytes r) (hlimit : d.maxFrameBytes = limit) :
    GoodFrame T d bytes r where
  decodes := by
    obtain ⟨hheader, hversion, hrest⟩ := decodeMessage_eq_ok.mp h.decodes
    exact decodeMessage_eq_ok.mpr ⟨hheader, fun _ => hversion rfl, hrest⟩
  whole := h.whole
  within := h.not_overLimit hlimit

theorem GoodFrame.congr (h : GoodFrame T d bytes r) (hsame : Same d d') : GoodFrame T d' bytes r :=
  ⟨hsame.strict ▸ h.decodes, h.whole, by
    rw [overLimit, hsame.maxFrameBytes, ← overLimit]
    exact h.within⟩

theorem readLength_of_begin (h : p <+: bytes ++ more) (hp : headerBytes ≤ p.length)
    (hbytes : headerBytes ≤ bytes.length) : readLength p = readLength bytes := by
  obtain ⟨rest, hrest⟩ := h
  rw [← readLength_append hp rest, hrest, readLength_append hbytes]

theorem GoodFrame.nextFrame (h : GoodFrame T d bytes r) (hp : p <+: bytes ++ more) :
    FrameDecoder.nextFrame T d p = if p.length < bytes.length then .waits else .takes r := by
  obtain ⟨hheader, -, hwhole, codec, value, -, -, hr⟩ := decodeMessage_eq_ok.mp h.decodes
  have hlength : headerBytes + readLength bytes = bytes.length := by
    rw [← h.whole, hr]
  unfold FrameDecoder.nextFrame
  by_cases hshort : p.length < headerBytes
  · rw [if_pos hshort, if_pos (by omega)]
  rw [if_neg hshort, readLength_of_begin hp (Nat.not_lt.mp hshort) hheader, hlength, h.within,
    if_neg Bool.false_ne_true]
  split
  · rfl
  · next hlong =>
    -- all of the frame has come
    obtain ⟨rest, rfl⟩ : bytes <+: p :=
      List.prefix_of_prefix_length_le ⟨more, rfl⟩ hp (Nat.not_lt.mp hlong)
    rw [decodeMessage_whole T d.strict hwhole rest, h.decodes]

/-- Where a whole frame comes next, the bytes that wait are fewer. -/
theorem first_waits (hframes : List.Forall₂ (GoodFrame T d) frames rs)
    (hwaits : FrameDecoder.nextFrame T d p = .waits) (hp : p <+: frames.flatten ++ more) :
    ∀ f ∈ frames.head?, p.length < f.length := by
  rintro f hf
  cases hframes with
  | nil => cases hf
  | cons hframe _ =>
    obtain rfl := Option.some.inj hf
    rw [List.flatten_cons, List.append_assoc] at hp
    have hnext := hframe.nextFrame hp
    by_contra hlong
    rw [hwaits, if_neg hlong] at hnext
    cases hnext

/-- What a push makes of the beginning of a row of frames and what is behind them: it ends among
the frames, with those that have all come, or takes them all out and goes on behind them. -/
theorem parsed_row {R : List UInt8 → Decoded V → Prop} (hgood : ∀ f r, R f r → GoodFrame T d f r)
    (hframes : List.Forall₂ R frames rs) (hparsed : Parsed T d p out rest e)
    (hp : p ++ more = frames.flatten ++ tail) :
    (e = none ∧ ∃ left rs', rs = out ++ rs' ∧ List.Forall₂ R left rs' ∧ rest ++ more = left.flatten ++ tail ∧
      p.length + left.flatten.length = rest.length + frames.flatten.length ∧
      p.length < frames.flatten.length) ∨
    ∃ p' out', out = rs ++ out' ∧ Parsed T d p' out' rest e ∧ p' ++ more = tail ∧
      p.length = frames.flatten.length + p'.length := by
  induction hframes generalizing p out with
  | nil => exact Or.inr ⟨p, out, rfl, hparsed, hp, (Nat.zero_add _).symm⟩
  | @cons f r frames rs hframe hframes ih =>
    rw [List.flatten_cons, List.append_assoc] at hp
    have hnext := (hgood f r hframe).nextFrame ⟨more, hp⟩
    rw [List.flatten_cons, List.length_append]
    cases hparsed with
    | waits _ hwaits =>
      rw [hwaits] at hnext
      split at hnext
      · refine Or.inl ⟨rfl, f :: frames, r :: rs, rfl, .cons hframe hframes, ?_, ?_, by omega⟩
        · rw [List.flatten_cons, List.append_assoc, hp]
        · rw [List.flatten_cons, List.length_append]
      · cases hnext
    | fails _ m hfails =>
      rw [hfails] at hnext
      split at hnext <;> cases hnext
    | takes _ frame htakes out _ _ hrest =>
      rw [htakes] at hnext
      split at hnext
      · cases hnext
      · next hlong =>
        cases hnext
        obtain ⟨behind, rfl⟩ : f <+: p :=
          List.prefix_of_prefix_length_le ⟨_, rfl⟩ ⟨more, hp⟩ (Nat.not_lt.mp hlong)
        rw [List.append_assoc] at hp
        rw [(hgood f r hframe).whole, List.drop_left] at hrest
        rw [List.length_append]
        rcases ih hrest (List.append_cancel_left hp) with
          ⟨hnone, left, rs', hrs, hleft, hstream, hlength, hlt⟩ | ⟨p', out', hout, hbehind, hp', hlength⟩
        · exact Or.inl ⟨hnone, left, rs', by rw [hrs]; rfl, hleft, hstream, by omega, by omega⟩
        · exact Or.inr ⟨p', out', by rw [hout]; rfl, hbehind, hp', by omega⟩

theorem validFrame_frame {codec : Codec} {payload : List UInt8} {value : Value V}
    (hlength : payload.length < 2 ^ 32) (hvalue : decodePayload T codec payload = .ok value)
    (hwithin : ∀ m ∈ limit, headerBytes + payload.length ≤ m) :
    ValidFrame T limit (frame codec payload)
      ⟨protocolVersion, codec, value, headerBytes + payload.length⟩ := by
  refine ⟨?_, (length_frame codec payload).symm, fun m hm => ?_⟩
  · have hdecoded := decodeMessage_frame T codec payload [] true
    rw [List.append_nil, Nat.mod_eq_of_lt hlength, List.take_length, hvalue] at hdecoded
    exact hdecoded
  · rw [length_frame]
    exact hwithin m hm

/-! ## Chunks -/

/-- A push of a part of the stream throws nothing, and waits with less than the next frame. -/
theorem parsed_unfinished (hlimit : d.maxFrameBytes = limit)
    (hframes : List.Forall₂ (ValidFrame T limit) frames rs) (htail : Unfinished T limit tail)
    (hparsed : Parsed T d p out rest e) (hp : p ++ more = frames.flatten ++ tail) :
    e = none ∧ ∃ left rs', rs = out ++ rs' ∧ List.Forall₂ (ValidFrame T limit) left rs' ∧
      rest ++ more = left.flatten ++ tail ∧ ∀ f ∈ left.head?, rest.length < f.length := by
  rcases parsed_row (fun f r h => h.good hlimit) hframes hparsed hp with
    ⟨rfl, left, rs', hrs, hleft, hstream, -, -⟩ | ⟨p', out', rfl, hbehind, hp', -⟩
  · refine ⟨rfl, left, rs', hrs, hleft, hstream, ?_⟩
    exact first_waits (hleft.imp fun _ _ h => h.good hlimit) (hparsed.left.2.1 rfl) ⟨more, hstream⟩
  · have hwaits : FrameDecoder.nextFrame T d p' = .waits := by
      obtain ⟨g, r, hg, hlead, hshort⟩ := htail
      have hbegin : p' <+: tail := ⟨more, hp'⟩
      have hnext := (hg.good hlimit).nextFrame ((hbegin.trans hlead).trans (List.prefix_append _ []))
      rw [hnext, if_pos (hbegin.length_le.trans_lt hshort)]
    cases hbehind with
    | waits _ _ => exact ⟨rfl, [], [], by simp, .nil, hp', fun f hf => nomatch hf⟩
    | fails _ m hfails => cases hwaits.symm.trans hfails
    | takes _ frame htakes => cases hwaits.symm.trans htakes

def Waits (d : Decoder) (frames : List (List UInt8)) : Prop :=
  ∀ f ∈ frames.head?, (pending d).length < f.length

theorem feed_spec {chunks : List (List UInt8)} (hfits : Fits d) (hlimit : d.maxFrameBytes = limit)
    (hframes : List.Forall₂ (ValidFrame T limit) frames rs) (htail : Unfinished T limit tail)
    (hwaits : Waits d frames) (hstream : pending d ++ chunks.flatten = frames.flatten ++ tail) :
    ∃ d', feed T d chunks = (d', .ok rs) ∧ Fits d' ∧ pending d' = tail := by
  induction chunks generalizing d frames rs with
  | nil =>
    cases hframes with
    | nil => exact ⟨d, rfl, hfits, by simpa using hstream⟩
    | @cons f r frames rs hframe hframes =>
      -- the stream is at its end, and a whole frame would not have waited
      have hshort := hwaits f rfl
      have hlength := congrArg List.length hstream
      simp only [List.flatten_nil, List.append_nil, List.flatten_cons, List.length_append] at hlength
      omega
  | cons chunk chunks ih =>
    rw [List.flatten_cons, ← List.append_assoc] at hstream
    obtain ⟨out, rest, e, d', hparsed, hfits', hsame, rfl, hpush⟩ := push_parsed hfits T chunk
    obtain ⟨rfl, left, rs', rfl, hleft, hstream', hwaits'⟩ :=
      parsed_unfinished hlimit hframes htail hparsed hstream
    obtain ⟨d'', hfeed, hdone⟩ := ih hfits' (hsame.maxFrameBytes.trans hlimit) hleft hwaits' hstream'
    refine ⟨d'', ?_, hdone⟩
    rw [feed, hpush]
    dsimp only [outcome]
    rw [hfeed]

/-- However a row of frames and a part of a further one is cut into chunks, the pushes return
what decoding each frame returns, and the part is what waits. -/
theorem feed_frames {o : Options} (hnew : new o = .ok d) {further : List UInt8} {k : ℕ}
    {chunks : List (List UInt8)} (hframes : List.Forall₂ (ValidFrame T d.maxFrameBytes) frames rs)
    (hfurther : ValidFrame T d.maxFrameBytes further r) (hk : k < further.length)
    (hchunks : chunks.flatten = frames.flatten ++ further.take k) :
    ∃ d', feed T d chunks = (d', .ok rs) ∧ pendingBytes d' = (further.take k).length ∧
      flush d' false = .ok (further.take k) := by
  obtain ⟨hfits, hempty, -⟩ := fits_new hnew
  have htail : Unfinished T d.maxFrameBytes (further.take k) :=
    ⟨further, r, hfurther, List.take_prefix k further, by rw [List.length_take]; omega⟩
  have hwaits : Waits d frames := by
    intro f hf
    cases hframes with
    | nil => simp at hf
    | cons hframe _ =>
      obtain rfl := Option.some.inj hf
      rw [hempty]
      exact Nat.lt_of_lt_of_le (by decide) hframe.length_eq.1
  obtain ⟨d', hfeed, hfits', hpending⟩ := feed_spec hfits rfl hframes htail hwaits (by rw [hempty]; exact hchunks)
  refine ⟨d', hfeed, ?_, ?_⟩
  · rw [pendingBytes, ← hfits'.length_pending, hpending]
  · rw [flush, if_neg (by simp), hpending]

end

def upTo64 : Options := { maxFrameBytes := some (.finite 64) }

/-- A JSON frame and a raw one, cut inside the first header, inside the second payload and
between two empty chunks, and a part of a third. -/
theorem feed_frames_cut :
    let json := frame .json [91, 49, 93]
    let raw := frame .raw [7, 8]
    ∃ d : Decoder, new upTo64 = .ok d ∧
      ∃ d', feed digitText d [json.take 3, [], json.drop 3 ++ raw.take 7, raw.drop 7, [], raw.take 4] =
          (d', .ok [⟨1, .json, .json [1], 9⟩, ⟨1, .raw, .bytes [7, 8], 8⟩]) ∧
        pendingBytes d' = (raw.take 4).length ∧ flush d' false = .ok (raw.take 4) := by
  intro json raw
  have hnew : new upTo64 = .ok
      { buf := List.replicate initialBytes 0, start := 0, stop := 0, maxFrameBytes := some 64, strict := true } := by
    decide +kernel
  have hraw : ValidFrame digitText (some 64) raw ⟨1, .raw, .bytes [7, 8], 8⟩ :=
    validFrame_frame (by decide) rfl (by decide)
  have hjson : ValidFrame digitText (some 64) json ⟨1, .json, .json [1], 9⟩ :=
    validFrame_frame (by decide) rfl (by decide)
  exact ⟨_, hnew, feed_frames hnew (.cons hjson (.cons hraw .nil)) hraw (by decide) rfl⟩

end PerformanceHelpers.FrameDecoder
