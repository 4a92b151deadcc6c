import Mathlib

/- Framed messages (`src/helpers/powerMessageCodec.js`).

   A v1 frame is a six-byte header (version, codec, payload length in four
   little-endian bytes) and the payload. `JSON.stringify` and `JSON.parse`, with
   the UTF-8 step on either side, are a parameter (`JsonText`): what is used of
   them is that parsing undoes stringifying and that no proper prefix of a JSON
   text is a JSON text of the same value.

   What is proved:
     1. `decodeMessage_append` — a message is read the same with bytes behind it.
     2. `decodeMessage_frame` — decoding a frame, whatever follows it, reads the
        payload up to its length modulo 2^32.
     3. `decodeMessage_json_iff` — a JSON frame decodes to its value exactly when
        the text is shorter than 2^32 bytes.
     4. `decodeMessage_encodeMessage` — what `encodeMessage` makes of bytes or of a JSON
        value decodes to them, with any bytes behind it. -/
namespace PerformanceHelpers

/-- `JSON.stringify` to UTF-8 bytes and `JSON.parse` from them, on the values `V`
that are encoded. -/
structure JsonText (V : Type) where
  stringify : V → List UInt8
  parse : List UInt8 → Option V
  parse_stringify : ∀ v, parse (stringify v) = some v
  parse_take : ∀ v n, n < (stringify v).length → parse ((stringify v).take n) ≠ some v

namespace MessageCodec

/-- `CODECS`. -/
inductive Codec where
  | json
  | raw
  deriving DecidableEq, Repr

/-- `ID_BY_CODEC`. -/
def Codec.id : Codec → UInt8
  | .json => 0
  | .raw => 2

/-- `CODEC_BY_ID`. -/
def codecById (id : UInt8) : Option Codec :=
  if id = 0 then some .json else if id = 2 then some .raw else none

@[simp] theorem codecById_id (c : Codec) : codecById c.id = some c := by
  cases c <;> rfl

/-- `MESSAGE_PROTOCOL_VERSION`. -/
def protocolVersion : UInt8 := 1

/-- `HEADER_BYTES`. -/
def headerBytes : ℕ := 6

/-- `_frame`: the header, then the payload. -/
def frame (codec : Codec) (payload : List UInt8) : List UInt8 :=
  protocolVersion :: codec.id ::
    UInt8.ofNat payload.length ::
    UInt8.ofNat (payload.length >>> 8) ::
    UInt8.ofNat (payload.length >>> 16) ::
    UInt8.ofNat (payload.length >>> 24) :: payload

/-- `frameEncodedJson` of a JSON text. -/
def frameEncodedJson (json : List UInt8) : List UInt8 := frame .json json

/-- `_readLength`: four little-endian bytes at offset 2. -/
def readLength (bytes : List UInt8) : ℕ :=
  (bytes.getD 2 0).toNat + (bytes.getD 3 0).toNat * 2 ^ 8 + (bytes.getD 4 0).toNat * 2 ^ 16 +
    (bytes.getD 5 0).toNat * 2 ^ 24

/-- What a payload decodes to. -/
inductive Value (V : Type) where
  | json (value : V)
  | bytes (payload : List UInt8)

structure Decoded (V : Type) where
  version : UInt8
  codec : Codec
  value : Value V
  byteLength : ℕ

/-- The payload read by its codec (`u82o` of a JSON payload). -/
def decodePayload {V : Type} (T : JsonText V) (codec : Codec) (payload : List UInt8) :
    Except String (Value V) :=
  match codec with
  | .raw => .ok (.bytes payload)
  | .json =>
    match T.parse payload with
    | some v => .ok (.json v)
    | none => .error "SyntaxError"

/-- `decodeMessage(input, { strict })`. -/
def decodeMessage {V : Type} (T : JsonText V) (bytes : List UInt8) (strict : Bool) :
    Except String (Decoded V) :=
  if bytes.length < headerBytes then
    .error (s!"PowerMessageCodec: frame is {bytes.length} bytes, " ++
      s!"shorter than the {headerBytes}-byte header")
  else
    let version := bytes.getD 0 0
    if strict && version != protocolVersion then
      .error (s!"PowerMessageCodec: unsupported protocol version {version} " ++
        s!"(expected {protocolVersion})")
    else
      match codecById (bytes.getD 1 0) with
      | none => .error s!"PowerMessageCodec: unknown codec id {bytes.getD 1 0}"
      | some codec =>
        let length := readLength bytes
        if bytes.length < headerBytes + length then
          .error (s!"PowerMessageCodec: frame declares a {length}-byte payload but only " ++
            s!"{bytes.length - headerBytes} bytes are present (truncated frame)")
        else
          match decodePayload T codec ((bytes.drop headerBytes).take length) with
          | .error e => .error e
          | .ok value => .ok ⟨version, codec, value, headerBytes + length⟩

theorem decodeMessage_eq_ok {V : Type} {T : JsonText V} {bytes : List UInt8} {strict : Bool}
    {r : Decoded V} : decodeMessage T bytes strict = .ok r ↔
      headerBytes ≤ bytes.length ∧ (strict = true → bytes.getD 0 0 = protocolVersion) ∧
      headerBytes + readLength bytes ≤ bytes.length ∧
      ∃ codec value, codecById (bytes.getD 1 0) = some codec ∧
        decodePayload T codec ((bytes.drop headerBytes).take (readLength bytes)) = .ok value ∧
        r = ⟨bytes.getD 0 0, codec, value, headerBytes + readLength bytes⟩ := by
  unfold decodeMessage
  constructor
  · intro h
    by_cases hheader : bytes.length < headerBytes
    · rw [if_pos hheader] at h
      cases h
    rw [if_neg hheader] at h
    dsimp only at h
    by_cases hversion : (strict && bytes.getD 0 0 != protocolVersion) = true
    · rw [if_pos hversion] at h
      cases h
    rw [if_neg hversion] at h
    cases hcodec : codecById (bytes.getD 1 0) with
    | none =>
      rw [hcodec] at h
      cases h
    | some codec =>
      rw [hcodec] at h
      dsimp only at h
      by_cases hwhole : bytes.length < headerBytes + readLength bytes
      · rw [if_pos hwhole] at h
        cases h
      rw [if_neg hwhole] at h
      cases hvalue : decodePayload T codec ((bytes.drop headerBytes).take (readLength bytes)) with
      | error e =>
        rw [hvalue] at h
        cases h
      | ok value =>
        rw [hvalue] at h
        refine ⟨Nat.not_lt.mp hheader, fun hstrict => ?_, Nat.not_lt.mp hwhole, codec, value, rfl, hvalue,
          (Except.ok.inj h).symm⟩
        simpa [hstrict] using hversion
  · rintro ⟨hheader, hversion, hwhole, codec, value, hcodec, hvalue, rfl⟩
    rw [if_neg (Nat.not_lt.mpr hheader)]
    dsimp only
    rw [if_neg (by cases strict <;> simp_all), hcodec]
    dsimp only
    rw [if_neg (Nat.not_lt.mpr hwhole), hvalue]

theorem readLength_append {bytes : List UInt8} (h : headerBytes ≤ bytes.length) (rest : List UInt8) :
    readLength (bytes ++ rest) = readLength bytes := by
  unfold headerBytes at h
  simp only [readLength]
  rw [List.getD_append _ _ _ _ (by omega), List.getD_append _ _ _ _ (by omega),
    List.getD_append _ _ _ _ (by omega), List.getD_append _ _ _ _ (by omega)]

theorem length_frame (codec : Codec) (payload : List UInt8) :
    (frame codec payload).length = headerBytes + payload.length := by
  simp [frame, headerBytes]
  omega

/-- The four length bytes hold the length modulo 2^32. -/
theorem readLength_frame (codec : Codec) (payload suffix : List UInt8) :
    readLength (frame codec payload ++ suffix) = payload.length % 2 ^ 32 := by
  simp only [readLength, frame, List.cons_append, List.getD_cons_succ, List.getD_cons_zero,
    UInt8.toNat_ofNat', Nat.shiftRight_eq_div_pow]
  omega

theorem decodeMessage_frame {V : Type} (T : JsonText V) (codec : Codec)
    (payload suffix : List UInt8) (strict : Bool) :
    decodeMessage T (frame codec payload ++ suffix) strict =
      (decodePayload T codec (payload.take (payload.length % 2 ^ 32))).map fun value =>
        ⟨protocolVersion, codec, value, headerBytes + payload.length % 2 ^ 32⟩ := by
  have hmod : payload.length % 2 ^ 32 ≤ payload.length := Nat.mod_le _ _
  have hlen : (frame codec payload ++ suffix).length =
      headerBytes + payload.length + suffix.length := by
    rw [List.length_append, length_frame]
  have hdrop : (frame codec payload ++ suffix).drop headerBytes = payload ++ suffix := rfl
  have h0 : (frame codec payload ++ suffix).getD 0 0 = protocolVersion := rfl
  have h1 : (frame codec payload ++ suffix).getD 1 0 = codec.id := rfl
  simp only [decodeMessage, readLength_frame, hdrop, h0, h1, codecById_id]
  rw [if_neg (by omega), if_neg (by simp), if_neg (by omega),
    List.take_append_of_le_length hmod]
  cases decodePayload T codec (payload.take (payload.length % 2 ^ 32)) <;> rfl

theorem decodeMessage_json_iff {V : Type} (T : JsonText V) (v : V) (strict : Bool) :
    (∃ d, decodeMessage T (frameEncodedJson (T.stringify v)) strict = .ok d ∧
        d.value = .json v) ↔ (T.stringify v).length < 2 ^ 32 := by
  have hdec := decodeMessage_frame T .json (T.stringify v) [] strict
  rw [List.append_nil] at hdec
  rw [frameEncodedJson, hdec]
  constructor
  · rintro ⟨d, hd, hv⟩
    by_contra hge
    -- the header holds a shorter length, so only a proper prefix is parsed
    have hlt : (T.stringify v).length % 2 ^ 32 < (T.stringify v).length := by omega
    have hparse := T.parse_take v _ hlt
    unfold decodePayload at hd
    cases hp : T.parse ((T.stringify v).take ((T.stringify v).length % 2 ^ 32)) with
    | none =>
      rw [hp] at hd
      have herror : (Except.error "SyntaxError" : Except String (Decoded V)) = .ok d := hd
      cases herror
    | some w =>
      simp only [hp, Except.map, Except.ok.injEq] at hd
      subst hd
      simp only [Value.json.injEq] at hv
      exact hparse (hv ▸ hp)
  · intro hlt
    have htake : (T.stringify v).take ((T.stringify v).length % 2 ^ 32) = T.stringify v := by
      rw [Nat.mod_eq_of_lt hlt, List.take_length]
    rw [htake, decodePayload, T.parse_stringify]
    exact ⟨_, rfl, rfl⟩

/-! ## Encoding -/

def selectCodec {V : Type} : Value V → Codec
  | .bytes _ => .raw
  | .json _ => .json

/-- `ID_BY_CODEC`, by name. -/
def codecByName (name : String) : Option Codec :=
  if name = "json" then some .json else if name = "raw" then some .raw else none

/-- The codec that `encodeMessage` takes: the one that is forced, when its name is not empty. -/
def chosenCodec {V : Type} (value : Value V) : Option String → Option Codec
  | none => some (selectCodec value)
  | some name => if name = "" then some (selectCodec value) else codecByName name

/-- `encodeMessage(value, { codec })`. `viewText` is the JSON text of bytes, for a caller that
forces `json` on them. -/
def encodeMessage {V : Type} (T : JsonText V) (viewText : List UInt8 → List UInt8) (value : Value V)
    (codec : Option String) : Except String (List UInt8) :=
  match chosenCodec value codec, value with
  | none, _ => .error ("PowerMessageCodec: unknown codec \"" ++ codec.getD "" ++ "\". Expected \"json\" or " ++
      "\"raw\". For structured-clone speed on a MessagePort/Worker use encodeNativeEnvelope() instead.")
  | some .raw, .bytes payload => .ok (frame .raw payload)
  | some .raw, .json _ =>
    .error "PowerMessageCodec: the \"raw\" codec requires an ArrayBuffer or a typed array"
  | some .json, .json v => .ok (frame .json (T.stringify v))
  | some .json, .bytes payload => .ok (frame .json (viewText payload))

/-- What a value is in a frame. -/
def body {V : Type} (T : JsonText V) : Value V → List UInt8
  | .bytes payload => payload
  | .json v => T.stringify v

theorem encodeMessage_default {V : Type} (T : JsonText V) (viewText : List UInt8 → List UInt8) (value : Value V) :
    encodeMessage T viewText value none = .ok (frame (selectCodec value) (body T value)) := by
  cases value <;> rfl

def digitByte (d : Fin 10) : UInt8 := UInt8.ofNat (48 + d)

def digitOf (b : UInt8) : Option (Fin 10) :=
  if h : 48 ≤ b.toNat ∧ b.toNat < 58 then some ⟨b.toNat - 48, by omega⟩ else none

@[simp] theorem digitOf_digitByte (d : Fin 10) : digitOf (digitByte d) = some d := by
  revert d
  decide

theorem digitByte_ne_bracket (d : Fin 10) : digitByte d ≠ 93 := by
  revert d
  decide

def digitElements : List (Fin 10) → List UInt8
  | [] => []
  | [d] => [digitByte d]
  | d :: ds => digitByte d :: 44 :: digitElements ds

theorem digitElements_parse (ds : List (Fin 10)) : (digitElements ds).filterMap digitOf = ds := by
  have hcomma : digitOf 44 = none := by decide
  fun_induction digitElements ds with
  | case1 => rfl
  | case2 d => simp
  | case3 d ds _ ih => simp [hcomma, ih]

theorem bracket_notMem (ds : List (Fin 10)) : (93 : UInt8) ∉ digitElements ds := by
  fun_induction digitElements ds with
  | case1 => simp
  | case2 d => simpa using (digitByte_ne_bracket d).symm
  | case3 d ds _ ih =>
    simp only [List.mem_cons, not_or]
    exact ⟨(digitByte_ne_bracket d).symm, by decide, ih⟩

/-- The text of an array of digits, such as `[1,2,3]`; it is complete when it ends
in its bracket. -/
def digitText : JsonText (List (Fin 10)) where
  stringify ds := 91 :: digitElements ds ++ [93]
  parse bytes := if bytes.getLast? = some 93 then some (bytes.filterMap digitOf) else none
  parse_stringify ds := by
    have hopen : digitOf 91 = none := by decide
    have hclose : digitOf 93 = none := by decide
    rw [List.getLast?_concat, if_pos rfl, List.filterMap_append]
    simp [hopen, hclose, digitElements_parse]
  parse_take ds n hn := by
    have hle : n ≤ (91 :: digitElements ds).length := by
      simpa [Nat.lt_succ_iff] using hn
    rw [List.take_append_of_le_length hle, if_neg]
    · exact fun h => nomatch h
    · intro hlast
      have hmem := List.mem_of_mem_take (List.mem_of_getLast? hlast)
      rcases List.mem_cons.mp hmem with h | h
      · exact absurd h (by decide)
      · exact bracket_notMem ds h

end MessageCodec

end PerformanceHelpers
