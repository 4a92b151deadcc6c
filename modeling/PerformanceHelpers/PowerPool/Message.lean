import PerformanceHelpers.MessageCodec

/- What `PowerPool` puts on the wire (`src/helpers/powerPool.js`, and `decodeInbound`
   of `src/helpers/powerMessageCodec.js`).

   A message is an object that JSON can write (`object`), one that it cannot
   (`unwritable`: a cycle, a BigInt), a `Uint8Array` or another view (`bytes`), an
   `ArrayBuffer` (`buffer`) or a primitive. Objects are told apart by the value
   they hold, and a transfer list by the identities of its buffers. The encode
   cache is left out: it maps a text to the bytes of that text. -/
namespace PerformanceHelpers.PowerPool

open MessageCodec (Codec Value frame frameEncodedJson decodeMessage)

/-- JSON texts of the objects a pool posts. `assignCorrelationId` is
`Object.assign({}, message, { correlationId })`, and `envelopeValue` the `value` of
an object that is itself shaped as a native envelope. -/
structure ObjectText (V : Type) extends JsonText V where
  assignCorrelationId : V → String → V
  envelopeValue : V → Option V
  /-- No JSON document starts with the protocol version's byte. -/
  head_ne : ∀ v, (stringify v).head? ≠ some MessageCodec.protocolVersion

inductive Message (V : Type) where
  | object (v : V)
  | unwritable (n : ℕ)
  | bytes (b : List UInt8)
  | buffer (b : List UInt8)
  | scalar (n : ℕ)
  deriving DecidableEq

/-- `isPlainObject`: an object that is neither a view nor a buffer. -/
def Message.isPlainObject {V : Type} : Message V → Bool
  | .object _ | .unwritable _ => true
  | .bytes _ | .buffer _ | .scalar _ => false

/-- What reaches `postMessage`: a message, or a native envelope around one. -/
inductive Wire (V : Type) where
  | message (m : Message V)
  | envelope (value : Message V)
  deriving DecidableEq

def Wire.isPlainObject {V : Type} : Wire V → Bool
  | .message m => m.isPlainObject
  | .envelope _ => true

/-- A buffer in a transfer list: the message's own, or one the caller named. -/
inductive Transferable where
  | own
  | caller (n : ℕ)
  deriving DecidableEq, Repr

abbrev TransferList := Option (List Transferable)

/-- `MESSAGE_CODECS`. -/
inductive PoolCodec where
  | framed
  | legacy
  | negotiated
  deriving DecidableEq, Repr

structure Prepared (V : Type) where
  message : Wire V
  transfer : TransferList
  deferred : Bool
  deriving DecidableEq

section
variable {V : Type} (T : ObjectText V) (codec : PoolCodec)

/-- `_encodeForTransfer` of an object; `none` where `JSON.stringify` throws. -/
def encodeForTransfer : Message V → Option (List UInt8)
  | .object v => some (T.stringify v)
  | _ => none

/-- `_frameObjectForTransfer`. An object that cannot be framed is posted raw. -/
def frameObjectForTransfer (m : Message V) (tr : TransferList) : Prepared V :=
  match encodeForTransfer T m with
  | some body =>
    let u8 := if codec = .legacy then body else frameEncodedJson body
    ⟨.message (.bytes u8), some (tr.getD [] ++ [.own]), false⟩
  | none => ⟨.message m, tr, false⟩

def prepareForTransfer (m : Message V) (tr : TransferList) (zeroCopy : Bool) : Prepared V :=
  match m with
  | .bytes b | .buffer b =>
    match tr with
    | none =>
      if codec = .framed then ⟨.message (.bytes (frame .raw b)), some [.own], false⟩
      else ⟨.message m, some [.own], false⟩
    | some _ => ⟨.message m, tr, false⟩
  | .object _ | .unwritable _ =>
    if zeroCopy then ⟨.message m, tr, false⟩
    else if codec = .negotiated then ⟨.message m, tr, true⟩
    else frameObjectForTransfer T codec m tr
  | .scalar _ => ⟨.message m, tr, false⟩

/-- `prepareBuffers` of one item, as `postMessageBatch` calls it (`clone` is false). -/
def prepareBuffers (m : Message V) (tr : TransferList) (zeroCopy : Bool) : Prepared V :=
  match tr with
  | some _ => ⟨.message m, tr, false⟩
  | none =>
    match m with
    | .object _ | .unwritable _ =>
      if zeroCopy then ⟨.message m, none, false⟩
      else if codec = .legacy then
        match encodeForTransfer T m with
        | some body => ⟨.message (.bytes body), none, false⟩
        | none => ⟨.message m, none, false⟩
      else ⟨.message m, none, true⟩
    | .bytes _ | .buffer _ => ⟨.message m, some [.own], false⟩
    | .scalar _ => ⟨.message m, none, false⟩

/-- What `broadcast` hands each worker. -/
def prepareBroadcast (m : Message V) (tr : TransferList) : Prepared V :=
  match tr, encodeForTransfer T m with
  | none, some body => ⟨.message (.bytes body), some [.own], false⟩
  | _, _ => ⟨.message m, tr, false⟩

/-- `_frameObjectForTransfer` of a deferred item, when it is dispatched. -/
def frameDeferred (prepared : Prepared V) : Prepared V :=
  match prepared.message with
  | .message m => frameObjectForTransfer T codec m prepared.transfer
  | .envelope _ => prepared

def encodeNativeForWorker (available : Bool) (prepared : Prepared V) : Option (Prepared V) :=
  match available, prepared.message with
  | true, .message m => some ⟨.envelope m, none, false⟩
  | _, _ => none

/-- `_encodeForWorker`, for a worker that has (`native`) announced the native carrier. -/
def encodeForWorker (available native : Bool) (prepared : Prepared V) : Prepared V :=
  if !prepared.deferred then prepared
  else if codec = .negotiated && native then
    (encodeNativeForWorker available prepared).getD (frameDeferred T codec prepared)
  else frameDeferred T codec prepared

/-- What `_dispatchToWorker` hands the wrapper: a deferred item is framed. -/
def dispatchedItem (prepared : Prepared V) : Prepared V :=
  if prepared.deferred then frameDeferred T codec prepared else prepared

/-- What `WorkerWrapper.postMessage` hands the worker: an object that is not an
envelope is replaced by its JSON text. -/
def wrapperMessage : Wire V → Wire V
  | .message (.object v) =>
    if (T.envelopeValue v).isSome then .message (.object v)
    else .message (.bytes (T.stringify v))
  | w => w

/-- `isTransferListLive`, when the buffers `detached` are. -/
def isTransferListLive (detached : List ℕ) (tr : List Transferable) : Bool :=
  tr.all fun
    | .own => true
    | .caller n => !detached.contains n

/-- `canBypassWrapper`: an object with a live transfer list. -/
def canBypassWrapper (detached : List ℕ) (prepared : Prepared V) : Bool :=
  prepared.message.isPlainObject &&
    match prepared.transfer with
    | none => false
    | some tr => !tr.isEmpty && isTransferListLive detached tr

/-! ## Reading a message in the worker -/

/-- The `codec` of what `decodeInbound` returns. -/
inductive InboundCodec where
  | native
  | frame (codec : Codec)
  | legacy
  | raw
  deriving DecidableEq

def canStartJsonDocument (byte : UInt8) : Bool :=
  byte = 0x20 || byte = 0x09 || byte = 0x0a || byte = 0x0d || 0x20 ≤ byte

def ofValue : Value V → Message V
  | .json v => .object v
  | .bytes b => .bytes b

/-- `decodeInbound` of a byte sequence. -/
def decodeInboundBytes (b : List UInt8) : Except String (InboundCodec × Message V) :=
  if MessageCodec.headerBytes ≤ b.length && b.head? == some MessageCodec.protocolVersion then
    (decodeMessage T.toJsonText b true).map fun d => (.frame d.codec, ofValue d.value)
  else
    match b.head? with
    | none => .error "PowerMessageCodec: unsupported protocol version undefined (expected 1)"
    | some byte =>
      if !canStartJsonDocument byte then
        if byte = MessageCodec.protocolVersion then
          .error (s!"PowerMessageCodec: truncated frame — {b.length} byte(s) is shorter than " ++
            s!"the {MessageCodec.headerBytes}-byte header")
        else .error s!"PowerMessageCodec: unsupported protocol version {byte} (expected 1)"
      else
        match T.parse b with
        | some v => .ok (.legacy, .object v)
        | none => .error "SyntaxError"

def decodeInbound : Wire V → Except String (InboundCodec × Message V)
  | .envelope m => .ok (.native, m)
  | .message (.object v) =>
    match T.envelopeValue v with
    | some value => .ok (.native, .object value)
    | none => .ok (.raw, .object v)
  | .message (.bytes b) | .message (.buffer b) => decodeInboundBytes T b
  | .message m => .ok (.raw, m)

end

/-! ## A text -/

def writeId : Option (List UInt8) → List UInt8
  | none => [0x7b, 0x7d]
  | some id => [0x7b, 0x22] ++ (id ++ [0x22, 0x7d])

def readId (b : List UInt8) : Option (Option (List UInt8)) :=
  let id := (b.drop 2).take (b.length - 4)
  if b = writeId none then some none else if b = writeId (some id) then some (some id) else none

theorem writeId_of_readId {b : List UInt8} {v : Option (List UInt8)} (h : readId b = some v) :
    writeId v = b := by
  unfold readId at h
  dsimp only at h
  split at h
  · next hb =>
    cases h
    exact hb.symm
  · split at h
    · next hb =>
      cases h
      exact hb.symm
    · cases h

/-- Objects that hold at most a correlation id. -/
def idText : ObjectText (Option (List UInt8)) where
  stringify := writeId
  parse := readId
  parse_stringify v := by
    cases v with
    | none => rfl
    | some id => simp [readId, writeId]
  parse_take v n hn h := by
    have hlen := congrArg List.length (writeId_of_readId h)
    rw [List.length_take] at hlen
    omega
  assignCorrelationId _ id := some (id.toList.map fun c => c.toNat.toUInt8)
  envelopeValue _ := none
  head_ne v := by
    cases v with
    | none => decide
    | some id =>
      have hhead : (writeId (some id)).head? = some 0x7b := rfl
      rw [hhead]
      decide

end PerformanceHelpers.PowerPool
