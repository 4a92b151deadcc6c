import PerformanceHelpers.JsonDocument
import PerformanceHelpers.PowerPool.Message

/- What a worker reads from any carrier (`decodeInbound` of
   `src/helpers/powerMessageCodec.js`).

   Frames and bare JSON bodies share one channel and are told apart by their first
   byte. What is used of `JSON.parse` is that it reads documents of `Json.Document` and
   nothing else.

   What is proved:
     1. `decodeInbound_carrier` — on what a pool posts, this is the model that the
        pool's messages are read by.
     2. `decodeInbound_classifies` — what each carrier is read as: envelopes, other
        values, frames of version 1, JSON bodies in bytes, frames of another version. -/
namespace PerformanceHelpers.PowerPool.Inbound

open MessageCodec (Codec codecById headerBytes readLength protocolVersion decodeMessage
  decodePayload)

/-- `e.data`: a native envelope, an `ArrayBuffer` or a view, a string, another value that
JSON can write, a value that it cannot. -/
inductive Data (V : Type) where
  | envelope (value : Data V) (correlationId : Option String)
  | binary (b : List UInt8)
  | text (s : String)
  | json (v : V)
  | other (n : ℕ)
  deriving DecidableEq

/-- What `decodeInbound` returns. -/
structure Received (V : Type) where
  codec : InboundCodec
  value : Data V
  correlationId : Option String
  deriving DecidableEq

variable {V : Type}

def ofMessage : Message V → Data V
  | .object v => .json v
  | .unwritable n | .scalar n => .other n
  | .bytes b | .buffer b => .binary b

def ofWire (T : ObjectText V) : Wire V → Data V
  | .envelope m => .envelope (ofMessage m) none
  | .message (.object v) =>
    match T.envelopeValue v with
    | some value => .envelope (.json value) none
    | none => .json v
  | .message m => ofMessage m

def decodeInbound (T : ObjectText V) : Data V → Except String (Received V)
  | .envelope value correlationId => .ok ⟨.native, value, correlationId⟩
  | .binary b => (decodeInboundBytes T b).map fun r => ⟨r.1, ofMessage r.2, none⟩
  | data => .ok ⟨.raw, data, none⟩

/-- On what a pool posts, the two models of `decodeInbound` agree. -/
theorem decodeInbound_carrier (T : ObjectText V) (w : Wire V) :
    decodeInbound T (ofWire T w) =
      (PowerPool.decodeInbound T w).map fun r => ⟨r.1, ofMessage r.2, none⟩ := by
  cases w with
  | envelope m => rfl
  | message m =>
    cases m with
    | object v =>
      cases h : T.envelopeValue v <;> simp [ofWire, PowerPool.decodeInbound, h, decodeInbound] <;> rfl
    | unwritable n | bytes b | buffer b | scalar n => rfl

/-- A full header, and the payload that it declares. -/
def FrameShaped (b : List UInt8) : Prop :=
  headerBytes ≤ b.length ∧ b.length = headerBytes + readLength b

/-- `isNativeEnvelope`, `isArrayBuffer` and `ArrayBuffer.isView` all refuse the value. -/
def Data.Plain : Data V → Prop
  | .envelope _ _ | .binary _ => False
  | .text _ | .json _ | .other _ => True

section
variable {T : ObjectText V} {b : List UInt8}

theorem decodeInbound_version (hheader : headerBytes ≤ b.length)
    (hversion : b.head? = some protocolVersion) :
    decodeInbound T (.binary b) = (decodeMessage T.toJsonText b true).map
      fun d => ⟨.frame d.codec, ofMessage (ofValue d.value), none⟩ := by
  have hframe : (headerBytes ≤ b.length && b.head? == some protocolVersion) = true := by
    simp [hheader, hversion]
  rw [decodeInbound, decodeInboundBytes, if_pos hframe]
  cases decodeMessage T.toJsonText b true <;> rfl

theorem decodeInbound_frame (hshape : FrameShaped b) (hversion : b.head? = some protocolVersion)
    {c : Codec} (hcodec : codecById (b.getD 1 0) = some c) :
    decodeInbound T (.binary b) = (decodePayload T.toJsonText c (b.drop headerBytes)).map
      fun value => ⟨.frame c, ofMessage (ofValue value), none⟩ := by
  have hfirst : b.getD 0 0 = protocolVersion := by
    rw [List.getD_eq_getElem?_getD, ← List.head?_eq_getElem?, hversion]
    rfl
  have hpayload : (b.drop headerBytes).take (readLength b) = b.drop headerBytes := by
    apply List.take_of_length_le
    rw [List.length_drop, hshape.2, Nat.add_sub_cancel_left]
  rw [decodeInbound_version hshape.1 hversion, decodeMessage, if_neg (Nat.not_lt.mpr hshape.1)]
  dsimp only
  rw [hfirst, if_neg (by simp), hcodec]
  dsimp only
  rw [if_neg (Nat.not_lt.mpr (Nat.le_of_eq hshape.2.symm)), hpayload]
  cases decodePayload T.toJsonText c (b.drop headerBytes) <;> rfl

theorem decodeInboundBytes_other {first : UInt8} (hfirst : b.head? = some first)
    (hother : first ≠ protocolVersion) :
    decodeInboundBytes T b =
      if canStartJsonDocument first then
        (T.parse b).elim (.error "SyntaxError") fun v => .ok (.legacy, .object v)
      else .error s!"PowerMessageCodec: unsupported protocol version {first} (expected 1)" := by
  have hframe : ¬ (headerBytes ≤ b.length && b.head? == some protocolVersion) = true := by
    simp [hfirst, hother]
  rw [decodeInboundBytes, if_neg hframe, hfirst]
  dsimp only
  by_cases hstart : canStartJsonDocument first = true
  · rw [if_neg (by simp [hstart]), if_pos hstart]
    cases T.parse b <;> rfl
  · rw [if_pos (by simp [hstart]), if_neg hother, if_neg hstart]

theorem canStart_of_text {x : UInt8} (h : Json.IsText x) : canStartJsonDocument x = true := by
  rcases h with (h | h | h | h) | h <;> simp [canStartJsonDocument, h]

/-- A document starts with a byte that the fallback lets through. -/
theorem start_of_document (h : Json.Document b) :
    ∃ first, b.head? = some first ∧ first ≠ protocolVersion ∧ canStartJsonDocument first = true := by
  cases b with
  | nil => exact absurd rfl h.ne_nil
  | cons first rest =>
    have hstart : canStartJsonDocument first = true :=
      canStart_of_text (h.text first List.mem_cons_self)
    refine ⟨first, rfl, ?_, hstart⟩
    rintro rfl
    exact absurd hstart (by decide)

/-- The byte of a codec is a control character, which no document holds. -/
theorem not_document_of_codec (hcodec : codecById (b.getD 1 0) ≠ none) (hheader : headerBytes ≤ b.length) :
    ¬ Json.Document b := by
  intro h
  have hlt : 1 < b.length := Nat.lt_of_lt_of_le (by decide) hheader
  have hmem : b.getD 1 0 ∈ b := by
    rw [List.getD_eq_getElem _ _ hlt]
    exact List.getElem_mem hlt
  have hstart := canStart_of_text (h.text _ hmem)
  have hknown : b.getD 1 0 = 0 ∨ b.getD 1 0 = 2 := by
    by_contra hne
    rw [not_or] at hne
    exact hcodec (by rw [codecById, if_neg hne.1, if_neg hne.2])
  rcases hknown with hbyte | hbyte <;> rw [hbyte] at hstart <;> exact absurd hstart (by decide)

end

/-- What each carrier is read as, where `JSON.parse` reads documents only. An envelope
is read as its value, and a value that is no bytes (a string too) is handed on. A frame
of version 1 is read as its payload, and a JSON body in bytes as its value. A frame of
another version reports that version unless a JSON document may start with its byte, and
is not read as JSON even then. -/
theorem decodeInbound_classifies (T : ObjectText V)
    (hjson : ∀ b v, T.parse b = some v → Json.Document b) :
    (∀ value id, decodeInbound T (.envelope value id) = .ok ⟨.native, value, id⟩) ∧
    (∀ data : Data V, data.Plain → decodeInbound T data = .ok ⟨.raw, data, none⟩) ∧
    (∀ b, FrameShaped b → b.head? = some protocolVersion →
      (codecById (b.getD 1 0) = some .raw →
        decodeInbound T (.binary b) = .ok ⟨.frame .raw, .binary (b.drop headerBytes), none⟩) ∧
      (∀ v, codecById (b.getD 1 0) = some .json → T.parse (b.drop headerBytes) = some v →
        decodeInbound T (.binary b) = .ok ⟨.frame .json, .json v, none⟩)) ∧
    (∀ b v, T.parse b = some v → decodeInbound T (.binary b) = .ok ⟨.legacy, .json v, none⟩) ∧
    (∀ b version, FrameShaped b → b.head? = some version → version ≠ protocolVersion →
      (canStartJsonDocument version = false → decodeInbound T (.binary b) =
        .error s!"PowerMessageCodec: unsupported protocol version {version} (expected 1)") ∧
      (codecById (b.getD 1 0) ≠ none → ∃ e, decodeInbound T (.binary b) = .error e)) := by
  refine ⟨fun value id => rfl, ?_, ?_, ?_, ?_⟩
  · intro data hplain
    cases data with
    | envelope _ _ | binary _ => exact hplain.elim
    | text s | json v | other n => rfl
  · intro b hshape hversion
    constructor
    · intro hcodec
      rw [decodeInbound_frame hshape hversion hcodec]
      rfl
    · intro v hcodec hparse
      rw [decodeInbound_frame hshape hversion hcodec, decodePayload, hparse]
      rfl
  · intro b v hparse
    obtain ⟨first, hfirst, hother, hstart⟩ := start_of_document (hjson b v hparse)
    rw [decodeInbound, decodeInboundBytes_other hfirst hother, if_pos hstart, hparse]
    rfl
  · intro b version hshape hfirst hother
    rw [decodeInbound, decodeInboundBytes_other hfirst hother]
    constructor
    · intro hstart
      rw [hstart]
      rfl
    · intro hcodec
      have hparse : T.parse b = none := by
        cases hread : T.parse b with
        | none => rfl
        | some v => exact absurd (hjson b v hread) (not_document_of_codec hcodec hshape.1)
      rw [hparse]
      by_cases hstart : canStartJsonDocument version = true
      · exact ⟨_, by rw [if_pos hstart]; rfl⟩
      · exact ⟨_, by rw [if_neg hstart]; rfl⟩

/-- The documents `true` and `false`. -/
def boolText : ObjectText Bool where
  stringify v := if v then [0x74, 0x72, 0x75, 0x65] else [0x66, 0x61, 0x6c, 0x73, 0x65]
  parse b :=
    if b = [0x74, 0x72, 0x75, 0x65] then some true
    else if b = [0x66, 0x61, 0x6c, 0x73, 0x65] then some false
    else none
  parse_stringify v := by cases v <;> decide
  parse_take v := by cases v <;> decide
  assignCorrelationId v _ := v
  envelopeValue _ := none
  head_ne v := by cases v <;> decide

theorem document_of_value {b : List UInt8} (h : Json.Derives .value b) : Json.Document b := by
  have hblank : Json.Whitespace [] := by simp [Json.Whitespace]
  have helement := Json.Derives.element hblank hblank h
  rw [List.nil_append, List.append_nil] at helement
  exact ⟨[], b, Or.inl rfl, helement, rfl⟩

theorem boolText_document (b : List UInt8) (v : Bool) (h : boolText.parse b = some v) :
    Json.Document b := by
  dsimp only [boolText] at h
  by_cases htrue : b = [0x74, 0x72, 0x75, 0x65]
  · rw [htrue]
    exact document_of_value .true
  · by_cases hfalse : b = [0x66, 0x61, 0x6c, 0x73, 0x65]
    · rw [hfalse]
      exact document_of_value .false
    · rw [if_neg htrue, if_neg hfalse] at h
      cases h

/-- The body `true`, bare and in a frame, and a frame of version 2. -/
theorem decodeInbound_classifies_bool :
    decodeInbound boolText (.binary [0x74, 0x72, 0x75, 0x65]) = .ok ⟨.legacy, .json true, none⟩ ∧
    decodeInbound boolText (.binary [1, 0, 4, 0, 0, 0, 0x74, 0x72, 0x75, 0x65]) =
      .ok ⟨.frame .json, .json true, none⟩ ∧
    decodeInbound boolText (.binary [2, 0, 0, 0, 0, 0]) =
      .error "PowerMessageCodec: unsupported protocol version 2 (expected 1)" := by
  obtain ⟨-, -, hframe, hlegacy, hversion⟩ := decodeInbound_classifies boolText boolText_document
  refine ⟨hlegacy _ true (by decide), ?_, ?_⟩
  · exact (hframe _ ⟨by decide, by decide⟩ rfl).2 true (by decide) (by decide)
  · exact (hversion _ 2 ⟨by decide, by decide⟩ rfl (by decide)).1 (by decide)

/-- The text `true` is handed on as a string, and a whole frame of version 32 fails as JSON
and not by its version. -/
theorem decodeInbound_lenient :
    decodeInbound boolText (.text "true") = .ok ⟨.raw, .text "true", none⟩ ∧
    boolText.parse [0x74, 0x72, 0x75, 0x65] = some true ∧
    FrameShaped [32, 0, 0, 0, 0, 0] ∧
    decodeInbound boolText (.binary [32, 0, 0, 0, 0, 0]) = .error "SyntaxError" := by
  refine ⟨rfl, by decide, ⟨by decide, by decide⟩, by decide⟩

end PerformanceHelpers.PowerPool.Inbound
