import PerformanceHelpers.FrameDecoder
import PerformanceHelpers.Run

/- What is left of a `createFrameDecoder` when a push throws (`src/helpers/powerMessageCodec.js`).

   A push stops at the first frame that is refused. That frame stays where it is, so that every
   push after it throws too, after it has taken its chunk in. The frames that were in front of it in the same
   push are gone from the buffer and are not returned.

   What is proved:
     1. `bounded_iff_room` — what waits is bounded by the limit and the last chunk exactly as long
        as no push comes when more than the limit waits.
     2. `frames_survive_iff` — the frames before a bad one are returned exactly when some push
        ends between them and the place where the bad one is recognised. -/
namespace PerformanceHelpers.FrameDecoder

open MessageCodec

variable {V : Type}

section
variable {T : JsonText V} {d : Decoder} {bytes : List UInt8}

theorem overLimit_iff {limit n : ℕ} (h : limit ∈ d.maxFrameBytes) : overLimit d n = true ↔ limit < n := by
  rw [overLimit, Option.mem_def.mp h, Option.any_some, decide_eq_true_eq]

theorem nextFrame_fails {m : String} (h : nextFrame T d bytes = .fails m) (more : List UInt8) :
    nextFrame T d (bytes ++ more) = .fails m := by
  unfold nextFrame at h
  by_cases hheader : bytes.length < headerBytes
  · rw [if_pos hheader] at h
    cases h
  rw [if_neg hheader] at h
  have hread := readLength_append (Nat.not_lt.mp hheader) more
  have hheader' : ¬(bytes ++ more).length < headerBytes := by
    rw [List.length_append]
    omega
  unfold nextFrame
  rw [if_neg hheader', hread]
  by_cases hover : overLimit d (headerBytes + readLength bytes) = true
  · rw [if_pos hover] at h ⊢
    exact h
  rw [if_neg hover] at h ⊢
  by_cases hshort : bytes.length < headerBytes + readLength bytes
  · rw [if_pos hshort] at h
    cases h
  rw [if_neg hshort] at h
  rw [if_neg (by rw [List.length_append]; omega), decodeMessage_whole T d.strict (Nat.not_lt.mp hshort) more]
  exact h

end

/-! ## What waits -/

structure Fed where
  decoder : Decoder
  latest : ℕ

inductive Event where
  | push (chunk : List UInt8)
  | flush (strict : Bool)
  | reset
  | dispose

def step (T : JsonText V) (s : Fed) : Event → Fed
  | .push chunk => ⟨(push T s.decoder chunk).1, chunk.length⟩
  | .flush _ => s
  | .reset => { s with decoder := reset s.decoder }
  | .dispose => { s with decoder := dispose s.decoder }

/-- No more waits than a frame and the last chunk. -/
def Bounded (s : Fed) : Prop := ∀ limit ∈ s.decoder.maxFrameBytes, pendingBytes s.decoder ≤ limit + s.latest

/-- A push comes when no more than a frame waits. -/
def Room (s : Fed) : Event → Prop
  | .push _ => ∀ limit ∈ s.decoder.maxFrameBytes, pendingBytes s.decoder ≤ limit
  | .flush _ | .reset | .dispose => True

/-- What every call leaves: no whole frame waits, and the limit holds a header. -/
structure Drained (T : JsonText V) (d : Decoder) : Prop where
  fits : Fits d
  header : ∀ limit ∈ d.maxFrameBytes, headerBytes ≤ limit
  left : nextFrame T d (pending d) = .waits ∨ ∃ m, nextFrame T d (pending d) = .fails m

section
variable {T : JsonText V} {d d' : Decoder} {bytes rest : List UInt8} {frames : List (Decoded V)}

theorem length_of_waits (h : nextFrame T d bytes = .waits) {limit : ℕ} (hlimit : limit ∈ d.maxFrameBytes)
    (hheader : headerBytes ≤ limit) : bytes.length ≤ limit := by
  by_contra hlong
  have hheader' : ¬bytes.length < headerBytes := by omega
  unfold nextFrame at h
  rw [if_neg hheader'] at h
  by_cases hover : overLimit d (headerBytes + readLength bytes) = true
  · rw [if_pos hover] at h
    cases h
  have hwithin : ¬limit < headerBytes + readLength bytes := by
    rw [← overLimit_iff hlimit]
    exact hover
  rw [if_neg hover, if_neg (by omega)] at h
  split at h
  · cases h
  · cases h

theorem Drained.push (h : Drained T d) (chunk : List UInt8) : Drained T (push T d chunk).1 := by
  obtain ⟨frames, rest, e, d', hparsed, hfits, hsame, hleft, hpush⟩ := push_parsed h.fits T chunk
  rw [hpush]
  refine ⟨hfits, hsame.maxFrameBytes ▸ h.header, ?_⟩
  rw [nextFrame_congr hsame, hleft]
  cases e with
  | none => exact Or.inl (hparsed.left.2.1 rfl)
  | some m => exact Or.inr ⟨m, hparsed.left.2.2 m rfl⟩

theorem bounded_push (h : Drained T d) (chunk : List UInt8) :
    Bounded ⟨(push T d chunk).1, chunk.length⟩ ↔ Room ⟨d, 0⟩ (.push chunk) := by
  obtain ⟨frames, rest, e, d', hparsed, hfits, hsame, hleft, hpush⟩ := push_parsed h.fits T chunk
  have hlength : pendingBytes d' = rest.length := by rw [pendingBytes, ← hfits.length_pending, hleft]
  have hlength' : pendingBytes d = (pending d).length := h.fits.length_pending.symm
  unfold Bounded Room
  rw [hpush]
  dsimp only
  rw [hsame.maxFrameBytes, hlength, hlength']
  constructor
  · intro hbounded limit hlimit
    rcases h.left with hwaits | ⟨m, hfails⟩
    · exact length_of_waits hwaits hlimit (h.header limit hlimit)
    · -- the frame that is refused is still there, with the chunk behind it
      have hstays := nextFrame_fails hfails chunk
      have hrest : rest = pending d ++ chunk := by
        cases hparsed with
        | waits _ _ | fails _ _ _ => rfl
        | takes _ _ htakes _ _ _ _ => cases hstays.symm.trans htakes
      have hle := hbounded limit hlimit
      rw [hrest, List.length_append] at hle
      omega
  · intro hroom limit hlimit
    have hle := hparsed.left.1
    have hle' := hroom limit hlimit
    rw [List.length_append] at hle
    omega

/-- The limit that the constructor lets through holds a header. -/
theorem header_le_limit {value : Option Number} {maxFrameBytes : Option ℕ}
    (h : assertMaxFrameBytes value = .ok maxFrameBytes) : ∀ limit ∈ maxFrameBytes, headerBytes ≤ limit := by
  intro limit hlimit
  cases value with
  | none => cases h
  | some value =>
    cases value with
    | infinity =>
      cases h
      cases hlimit
    | negInfinity | nan => cases h
    | finite q =>
      simp only [assertMaxFrameBytes] at h
      split at h
      · cases h
      · next hden =>
        obtain ⟨n, hn, rfl⟩ := map_eq_ok.mp h
        cases hlimit
        simp only [assertLimitRequired] at hn
        split at hn
        · cases hn
        · next hge =>
          cases hn
          have hnum : ((headerBytes : ℤ) : ℚ) ≤ (q.num : ℚ) := by
            rw [Rat.coe_int_num_of_den_eq_one (not_not.mp hden)]
            exact_mod_cast not_lt.mp hge
          have hle : (headerBytes : ℤ) ≤ q.num := by exact_mod_cast hnum
          omega

theorem drained_new {o : Options} (h : new o = .ok d) (T : JsonText V) : Drained T d := by
  obtain ⟨hfits, hempty, -⟩ := fits_new h
  have hwaits : nextFrame T d (pending d) = .waits := by
    rw [hempty]
    exact nextFrame_nil T d
  refine ⟨hfits, ?_, Or.inl hwaits⟩
  obtain ⟨maxFrameBytes, hmax, h⟩ := bind_eq_ok.mp h
  cases h
  exact header_le_limit hmax

theorem drained_step {s : Fed} (h : Drained T s.decoder) (e : Event) : Drained T (step T s e).decoder := by
  cases e with
  | push chunk => exact h.push chunk
  | flush strict => exact h
  | reset | dispose => exact ⟨⟨le_rfl, Nat.zero_le _⟩, h.header, Or.inl (nextFrame_nil T _)⟩

end

/-- What waits is never more than the limit and the last chunk exactly when every push comes when no
more than the limit waits. -/
theorem bounded_iff_room (T : JsonText V) {o : Options} {d : Decoder} (hnew : new o = .ok d)
    (es : List Event) : Always (step T) Bounded ⟨d, 0⟩ es ↔ Meets (step T) Room ⟨d, 0⟩ es := by
  have hempty : pendingBytes d = 0 := by
    obtain ⟨maxFrameBytes, -, hnew⟩ := bind_eq_ok.mp hnew
    cases hnew
    rfl
  refine always_iff_meets (Q := fun s => Drained T s.decoder) (fun s e h => drained_step h e)
    (fun s e h hbounded => ?_) (drained_new hnew T) fun limit _ => hempty.trans_le (Nat.zero_le _)
  cases e with
  | push chunk => exact bounded_push h chunk
  | flush strict => exact iff_of_true hbounded trivial
  | reset | dispose => exact iff_of_true (fun limit _ => Nat.zero_le _) trivial

/-- A header that declares too much, and then its payload piece by piece. -/
theorem unbounded_after_throw :
    let header : List UInt8 := [1, 2, 255, 255, 255, 127]
    let d : Decoder :=
      { buf := List.replicate initialBytes 0, start := 0, stop := 0, maxFrameBytes := some 64, strict := true }
    let s := run (step digitText) ⟨d, 0⟩ [.push header, .push (List.replicate 100 7), .push [7]]
    new upTo64 = .ok d ∧ pendingBytes s.decoder = 107 ∧ s.latest = 1 ∧ s.decoder.maxFrameBytes = some 64 := by
  decide +kernel

theorem bounded_iff_room_whole :
    let d : Decoder :=
      { buf := List.replicate initialBytes 0, start := 0, stop := 0, maxFrameBytes := some 64, strict := true }
    let es : List Event := [.push (frame .raw [7, 8]), .push [1, 2]]
    Always (step digitText) Bounded ⟨d, 0⟩ es ↔ Meets (step digitText) Room ⟨d, 0⟩ es := by
  intro d es
  have hnew : new upTo64 = .ok d := by decide +kernel
  exact bounded_iff_room digitText hnew es

/-! ## The frames before a bad one -/

/-- One push after the other: the frames that are returned before one throws, and what it throws. -/
def delivered (T : JsonText V) : Decoder → List (List UInt8) → List (Decoded V) × Option String
  | _, [] => ([], none)
  | d, chunk :: chunks =>
    match push T d chunk with
    | (_, .error e) => ([], some e)
    | (d, .ok frames) =>
      let (rest, e) := delivered T d chunks
      (frames ++ rest, e)

/-- A frame that a decoder refuses, and how much of it must have come. -/
inductive BadFrame (T : JsonText V) (d : Decoder) (bytes : List UInt8) : ℕ → Prop where
  /-- Its header declares too much. -/
  | oversized (hheader : headerBytes ≤ bytes.length)
    (hover : overLimit d (headerBytes + readLength bytes) = true) : BadFrame T d bytes headerBytes
  /-- It is all there, and is not decoded. -/
  | malformed (hwhole : bytes.length = headerBytes + readLength bytes)
    (hwithin : overLimit d bytes.length = false) (e : String)
    (hbad : decodeMessage T bytes d.strict = .error e) : BadFrame T d bytes bytes.length

section
variable {T : JsonText V} {d d' : Decoder} {bytes more p : List UInt8} {r : Decoded V} {k : ℕ}

theorem BadFrame.congr (h : BadFrame T d bytes k) (hsame : Same d d') : BadFrame T d' bytes k := by
  have hover (n : ℕ) : overLimit d' n = overLimit d n := by rw [overLimit, hsame.maxFrameBytes, ← overLimit]
  cases h with
  | oversized hheader h => exact BadFrame.oversized hheader ((hover _).trans h)
  | malformed hwhole hwithin e hbad =>
    exact BadFrame.malformed hwhole ((hover _).trans hwithin) e (hsame.strict ▸ hbad)

/-- A frame that is refused waits until enough of it has come. -/
theorem BadFrame.nextFrame (h : BadFrame T d bytes k) (hp : p <+: bytes ++ more) :
    (p.length < k → FrameDecoder.nextFrame T d p = .waits) ∧
      (k ≤ p.length → ∃ e, FrameDecoder.nextFrame T d p = .fails e) := by
  unfold FrameDecoder.nextFrame
  cases h with
  | oversized hheader hover =>
    refine ⟨fun hshort => if_pos hshort, fun hlong => ?_⟩
    rw [if_neg (Nat.not_lt.mpr hlong), readLength_of_begin hp hlong hheader, if_pos hover]
    exact ⟨_, rfl⟩
  | malformed hwhole hwithin e hbad =>
    have hheader : headerBytes ≤ bytes.length := by
      rw [hwhole]
      exact Nat.le_add_right _ _
    constructor
    · intro hshort
      by_cases hshort' : p.length < headerBytes
      · rw [if_pos hshort']
      · rw [if_neg hshort', readLength_of_begin hp (Nat.not_lt.mp hshort') hheader, ← hwhole, hwithin,
          if_neg Bool.false_ne_true, if_pos hshort]
    · intro hlong
      obtain ⟨rest, rfl⟩ : bytes <+: p := List.prefix_of_prefix_length_le ⟨more, rfl⟩ hp hlong
      rw [if_neg (by rw [List.length_append]; omega), readLength_append hheader, ← hwhole, hwithin,
        if_neg Bool.false_ne_true, if_neg (Nat.not_lt.mpr hlong),
        decodeMessage_whole T d.strict hwhole.ge rest, hbad]
      exact ⟨e, rfl⟩

theorem BadFrame.le (h : BadFrame T d bytes k) : k ≤ bytes.length := by
  cases h with
  | oversized hheader _ => exact hheader
  | malformed _ _ _ _ => exact le_rfl

variable {frames : List (List UInt8)} {rs out : List (Decoded V)} {bad tail rest : List UInt8}
  {e : Option String}

section
variable (hframes : List.Forall₂ (GoodFrame T d) frames rs)
include hframes

/-- What a push makes of the beginning of a row of frames and a bad one: the frames that have
all come, and the bad one when enough of it has. -/
theorem parsed_stream (hbad : BadFrame T d bad k)
    (hparsed : Parsed T d p out rest e) (hp : p ++ more = frames.flatten ++ (bad ++ tail)) :
    (e = none ∧ ∃ left rs', rs = out ++ rs' ∧ List.Forall₂ (GoodFrame T d) left rs' ∧
      rest ++ more = left.flatten ++ (bad ++ tail) ∧
      p.length + left.flatten.length = rest.length + frames.flatten.length ∧
      p.length < frames.flatten.length + k) ∨
    (e.isSome = true ∧ out = rs ∧ frames.flatten.length + k ≤ p.length) := by
  rcases parsed_row (fun _ _ h => h) hframes hparsed hp with
    ⟨rfl, left, rs', hrs, hleft, hstream, hlength, hlt⟩ | ⟨p', out', rfl, hbehind, hp', hlength⟩
  · exact Or.inl ⟨rfl, left, rs', hrs, hleft, hstream, hlength, by omega⟩
  · obtain ⟨hwait, hfail⟩ := hbad.nextFrame ⟨more, hp'⟩
    have hcut (hlt : p'.length < k) (h : FrameDecoder.nextFrame T d p' ≠ .waits) : False := h (hwait hlt)
    cases hbehind with
    | waits _ hwaits =>
      refine Or.inl ⟨rfl, [], [], by simp, .nil, hp', by simp [hlength, Nat.add_comm], ?_⟩
      by_contra hlong
      obtain ⟨m, hfails⟩ := hfail (by omega)
      cases hwaits.symm.trans hfails
    | fails _ m hfails =>
      refine Or.inr ⟨rfl, List.append_nil _, ?_⟩
      by_contra hshort
      exact hcut (by omega) (by simp [hfails])
    | takes _ frame htakes =>
      by_cases hshort : p'.length < k
      · exact (hcut hshort (by simp [htakes])).elim
      · obtain ⟨m, hfails⟩ := hfail (Nat.not_lt.mp hshort)
        cases htakes.symm.trans hfails

/-- Bytes that wait are fewer than what the bad frame is recognised by. -/
theorem length_lt_of_waits (hbad : BadFrame T d bad k)
    (hwaits : FrameDecoder.nextFrame T d p = .waits) (hp : p ++ more = frames.flatten ++ (bad ++ tail)) :
    p.length < frames.flatten.length + k := by
  rcases parsed_stream hframes hbad (Parsed.waits _ hwaits) hp with ⟨-, -, -, -, -, -, -, hlt⟩ | ⟨hsome, -⟩
  · exact hlt
  · cases hsome

end

theorem delivered_stream {chunks : List (List UInt8)} (hfits : Fits d)
    (hframes : List.Forall₂ (GoodFrame T d) frames rs) (hbad : BadFrame T d bad k)
    (hwaits : FrameDecoder.nextFrame T d (pending d) = .waits)
    (hstream : pending d ++ chunks.flatten = frames.flatten ++ (bad ++ tail)) :
    (delivered T d chunks).2.isSome = true ∧
    ((delivered T d chunks).1 = rs ↔ ∃ j,
      frames.flatten.length ≤ (pending d).length + (chunks.take j).flatten.length ∧
      (pending d).length + (chunks.take j).flatten.length < frames.flatten.length + k) := by
  induction chunks generalizing d frames rs with
  | nil =>
    have hfew := length_lt_of_waits hframes hbad hwaits hstream
    have hlength := congrArg List.length hstream
    have hle := hbad.le
    simp only [List.flatten_nil, List.append_nil, List.length_append] at hlength
    omega
  | cons chunk chunks ih =>
    have hfew := length_lt_of_waits hframes hbad hwaits hstream
    have hnil : frames.flatten.length ≤ (pending d).length → frames = [] := by
      intro hle
      have hfirst := first_waits hframes hwaits ⟨_, hstream⟩
      cases frames with
      | nil => rfl
      | cons f frames =>
        have hlt := hfirst f rfl
        rw [List.flatten_cons, List.length_append] at hle
        omega
    obtain ⟨out, rest, e, d', hparsed, hfits', hsame, hleft, hpush⟩ := push_parsed hfits T chunk
    rw [List.flatten_cons, ← List.append_assoc] at hstream
    rcases parsed_stream hframes hbad hparsed hstream with
      ⟨rfl, left, rs', rfl, hleft', hstream', hlength, hlt⟩ | ⟨hsome, rfl, hle⟩
    · -- the push returns, and the rest is the same question
      have hwaits' : FrameDecoder.nextFrame T d' (pending d') = .waits := by
        rw [nextFrame_congr hsame, hleft]
        exact hparsed.left.2.1 rfl
      have hleft'' := hleft'.imp fun _ _ hframe => GoodFrame.congr hframe hsame
      rw [← hleft] at hstream' hlength
      obtain ⟨hthrows, hall⟩ := ih hfits' hleft'' (hbad.congr hsame) hwaits' hstream'
      rw [delivered, hpush]
      refine ⟨hthrows, ?_⟩
      show out ++ (delivered T d' chunks).1 = out ++ rs' ↔ _
      rw [List.append_cancel_left_eq, hall]
      rw [List.length_append] at hlength hlt
      constructor
      · rintro ⟨j, hge, hlt'⟩
        refine ⟨j + 1, ?_⟩
        rw [List.take_succ_cons, List.flatten_cons, List.length_append]
        omega
      · rintro ⟨j, hge, hlt'⟩
        cases j with
        | zero =>
          have hempty := hnil (by simpa using hge)
          refine ⟨0, ?_⟩
          simp only [List.take_zero, List.flatten_nil, List.length_nil, hempty] at hlength hlt ⊢
          omega
        | succ j =>
          rw [List.take_succ_cons, List.flatten_cons, List.length_append] at hge hlt'
          exact ⟨j, by omega, by omega⟩
    · -- the push throws: nothing of it is returned
      obtain ⟨m, rfl⟩ := Option.isSome_iff_exists.mp hsome
      rw [delivered, hpush]
      refine ⟨rfl, ?_⟩
      show [] = out ↔ _
      rw [List.length_append] at hle
      constructor
      · rintro rfl
        cases hframes
        exact ⟨0, Nat.zero_le _, by simpa using hfew⟩
      · rintro ⟨j, hge, hlt'⟩
        cases j with
        | zero =>
          have hempty := hnil (by simpa using hge)
          subst hempty
          cases hframes
          rfl
        | succ j =>
          rw [List.take_succ_cons, List.flatten_cons, List.length_append] at hlt'
          omega

end

/-- A stream of whole frames and a bad one, cut into chunks: a push throws, and the pushes before it
have returned all the frames exactly when a chunk ends between the last of them and the place
where the bad frame is recognised. -/
theorem frames_survive_iff (T : JsonText V) {o : Options} {d : Decoder} (hnew : new o = .ok d)
    (frames : List (List UInt8)) (rs : List (Decoded V)) (bad tail : List UInt8) (k : ℕ)
    (chunks : List (List UInt8)) (hframes : List.Forall₂ (GoodFrame T d) frames rs)
    (hbad : BadFrame T d bad k) (hchunks : chunks.flatten = frames.flatten ++ bad ++ tail) :
    (delivered T d chunks).2.isSome = true ∧
    ((delivered T d chunks).1 = rs ↔ ∃ j, frames.flatten.length ≤ (chunks.take j).flatten.length ∧
      (chunks.take j).flatten.length < frames.flatten.length + k) := by
  obtain ⟨hfits, hempty, -⟩ := fits_new hnew
  have hwaits : nextFrame T d (pending d) = .waits := by
    rw [hempty]
    exact nextFrame_nil T d
  have hstream : pending d ++ chunks.flatten = frames.flatten ++ (bad ++ tail) := by
    rw [hempty, List.nil_append, hchunks, List.append_assoc]
  obtain ⟨hthrows, hall⟩ := delivered_stream hfits hframes hbad hwaits hstream
  simp only [hempty, List.length_nil, Nat.zero_add] at hall
  exact ⟨hthrows, hall⟩

/-- A raw frame and a header that declares too much, in one chunk and in two. -/
theorem frame_lost_in_chunk :
    let d : Decoder :=
      { buf := List.replicate initialBytes 0, start := 0, stop := 0, maxFrameBytes := some 64, strict := true }
    let bad : List UInt8 := [1, 2, 255, 255, 255, 127]
    let whole := delivered digitText d [frame .raw [7, 8] ++ bad]
    let cut := delivered digitText d [frame .raw [7, 8], bad]
    new upTo64 = .ok d ∧ whole.2 = cut.2 ∧ whole.2.isSome = true ∧
      whole.1.length = 0 ∧ cut.1.length = 1 := by
  decide +kernel

theorem frames_survive_iff_cut :
    let d : Decoder :=
      { buf := List.replicate initialBytes 0, start := 0, stop := 0, maxFrameBytes := some 64, strict := true }
    let bad : List UInt8 := [1, 2, 255, 255, 255, 127]
    let chunks := [frame .raw [7, 8], bad]
    (delivered digitText d chunks).2.isSome = true ∧
    ((delivered digitText d chunks).1 = [⟨1, .raw, .bytes [7, 8], 8⟩] ↔
      ∃ j, 8 ≤ (chunks.take j).flatten.length ∧ (chunks.take j).flatten.length < 8 + headerBytes) := by
  intro d bad chunks
  have hnew : new upTo64 = .ok d := by decide +kernel
  have hvalid : ValidFrame digitText (some 64) (frame .raw [7, 8]) ⟨1, .raw, .bytes [7, 8], 8⟩ :=
    validFrame_frame (by decide) rfl (by decide)
  have hgood : GoodFrame digitText d (frame .raw [7, 8]) ⟨1, .raw, .bytes [7, 8], 8⟩ :=
    ⟨hvalid.decodes, hvalid.whole, hvalid.not_overLimit rfl⟩
  have hbad : BadFrame digitText d bad headerBytes := .oversized (by decide) (by decide +kernel)
  exact frames_survive_iff digitText hnew [frame .raw [7, 8]] _ bad [] headerBytes chunks
    (.cons hgood .nil) hbad rfl

end PerformanceHelpers.FrameDecoder
