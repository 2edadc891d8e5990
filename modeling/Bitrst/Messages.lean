import Bitrst.BlockCodec

/-!
# Peer-to-peer messages

The messages of `bitrst-net`, the codecs of their payloads, the 24-byte header
with its command field and checksum, and the framing of both on a stream.  A
stream is the bytes that will be read from it before it closes; sockets that
fail are left out, so what is written is a byte string.
-/

namespace Bitrst

open Support WireReader

/-! ## Constants -/

def messageHeaderSize : ℕ := 24

def commandLength : ℕ := 12

def maxPayloadSize : ℕ := maxBlockSerializedSize

def maxInvCount : ℕ := 50000

def maxUserAgentLen : ℕ := 256

inductive Network
  | mainnet
  | testnet
  deriving DecidableEq

def Network.magic : Network → List.Vector UInt8 4
  | mainnet => ⟨[0xf9, 0xbe, 0xb4, 0xd9], rfl⟩
  | testnet => ⟨[0x0b, 0x11, 0x09, 0x07], rfl⟩

/-! ## Messages -/

inductive InvType
  | transaction
  | block
  | filteredBlock
  deriving DecidableEq

namespace InvType

def fromU32 (value : UInt32) : Option InvType :=
  if value = 1 then some transaction
  else if value = 2 then some block
  else if value = 3 then some filteredBlock
  else none

def toU32 : InvType → UInt32
  | transaction => 1
  | block => 2
  | filteredBlock => 3

end InvType

structure InventoryVector where
  invType : InvType
  hash : Hash256
  deriving DecidableEq

structure VersionMessage where
  version : Int32
  services : UInt64
  timestamp : Int64
  nonce : UInt64
  userAgent : String
  startHeight : Int32
  relay : Bool
  deriving DecidableEq

inductive MessagePayload
  | verack
  | version (message : VersionMessage)
  | inv (items : List InventoryVector)
  | getData (items : List InventoryVector)
  | block (block : Block)
  | tx (transaction : Transaction)
  deriving DecidableEq

structure Message where
  command : String
  payload : MessagePayload
  deriving DecidableEq

namespace Message

def verack : Message := ⟨"verack", .verack⟩

def version (version : VersionMessage) : Message := ⟨"version", .version version⟩

def inv (items : List InventoryVector) : Message := ⟨"inv", .inv items⟩

def getdata (items : List InventoryVector) : Message := ⟨"getdata", .getData items⟩

def block (block : Block) : Message := ⟨"block", .block block⟩

def tx (transaction : Transaction) : Message := ⟨"tx", .tx transaction⟩

end Message

inductive NetError
  | connectionClosed
  | invalidMagic
  | invalidCommand
  | payloadTooLarge (length : UInt32) (limit : ℕ)
  | checksumMismatch (command : String)
  | decode (e : DecodeError)
  | unsupportedCommand (command : String)
  | unknownInventoryType (invType : UInt32)
  | connectionLimitReached
  deriving DecidableEq

/-! ## Payloads -/

/-- The bytes of a string. -/
def utf8 (s : String) : Bytes := s.toByteArray.data.toList

def fromUtf8 (bytes : Bytes) : Option String := String.fromUTF8? ⟨bytes.toArray⟩

def i64ToLeBytes (x : Int64) : Bytes := u64ToLeBytes x.toUInt64

/-- A reader whose errors become those of the network. -/
def mapDecode {α : Type} (read : WireReader α) : Reader UInt8 NetError α := fun bytes ↦
  match read.run bytes with
  | .error e => .error (.decode e)
  | .ok result => .ok result

def readLimitedString (context : String) (maxLen : ℕ) : WireReader String := do
  let length ← readLimitedLen context maxLen
  let bytes ← readBytes length context
  match fromUtf8 bytes with
  | some s => return s
  | none => throw (.truncated context 0 0)

def readInvEntry : Reader UInt8 NetError InventoryVector := do
  let value ← mapDecode (WireReader.readU32 "inv entry type")
  match InvType.fromU32 value with
  | none => throw (.unknownInventoryType value)
  | some invType =>
      let hash ← mapDecode (readHash "inv entry hash")
      return ⟨invType, hash⟩

def decodeInventoryList (bytes : Bytes) (context : String) :
    Except NetError (List InventoryVector) := do
  let (items, _) ← (do
    let count ← mapDecode (readLimitedLen context maxInvCount)
    let items ← readMany readInvEntry count
    mapDecode (finish context)
    return items : Reader UInt8 NetError (List InventoryVector)).run bytes
  return items

def InventoryVector.serialize (item : InventoryVector) : Bytes :=
  u32ToLeBytes item.invType.toU32 ++ item.hash.toList

def encodeInventoryList (items : List InventoryVector) : Except NetError Bytes :=
  if maxInvCount < items.length then
    .error (.payloadTooLarge (UInt32.ofNat items.length) maxInvCount)
  else
    .ok (writeCompactSize (UInt64.ofNat items.length) ++ items.flatMap InventoryVector.serialize)

def legacyAddressSize : ℕ := 26

/-- The part of `decode_version` that reads; a relay flag may be missing at the end. -/
def readVersion : WireReader VersionMessage := do
  let version ← readI32 "version"
  let services ← readU64 "services"
  let timestamp ← readBytes 8 "timestamp"
  let _ ← readBytes legacyAddressSize "addr_recv"
  let _ ← readBytes legacyAddressSize "addr_from"
  let nonce ← readU64 "nonce"
  let userAgent ← readLimitedString "user agent" maxUserAgentLen
  let startHeight ← readI32 "start height"
  let left ← remaining
  let relay ←
    if left = 0 then pure true
    else if left = 1 then do
      let flag ← readBytes 1 "relay"
      pure (flag.headD 0 != 0)
    else throw (.trailingBytes "version" left)
  finish "version"
  return ⟨version, services, (u64FromLeBytes timestamp).toInt64, nonce, userAgent, startHeight,
    relay⟩

def decodeVersion (payload : Bytes) : Except NetError VersionMessage := do
  let (message, _) ← (mapDecode readVersion).run payload
  return message

def encodeVersion (message : VersionMessage) : Except NetError Bytes :=
  let userAgent := utf8 message.userAgent
  if maxUserAgentLen < userAgent.length then
    .error (.payloadTooLarge (UInt32.ofNat userAgent.length) maxUserAgentLen)
  else
    .ok (i32ToLeBytes message.version ++ u64ToLeBytes message.services ++
      i64ToLeBytes message.timestamp ++ List.replicate legacyAddressSize 0 ++
        List.replicate legacyAddressSize 0 ++ u64ToLeBytes message.nonce ++
          writeCompactSize (UInt64.ofNat userAgent.length) ++ userAgent ++
            i32ToLeBytes message.startHeight ++
              if 60002 ≤ message.version then [if message.relay then 1 else 0] else [])

def encodePayload (message : Message) : Except NetError (String × Bytes) :=
  match message.payload with
  | .verack => .ok (message.command, [])
  | .version version => (encodeVersion version).map (message.command, ·)
  | .inv items => (encodeInventoryList items).map (message.command, ·)
  | .getData items => (encodeInventoryList items).map (message.command, ·)
  | .block block => .ok (message.command, block.serialize)
  | .tx transaction => .ok (message.command, transaction.serialize)

def decodePayload (command : String) (payload : Bytes) : Except NetError Message := do
  let decoded ←
    if command = "verack" ∧ payload = [] then .ok .verack
    else if command = "version" then (decodeVersion payload).map .version
    else if command = "inv" then (decodeInventoryList payload "inv count").map .inv
    else if command = "getdata" then (decodeInventoryList payload "getdata count").map .getData
    else if command = "block" then ((Block.deserialize payload).mapError .decode).map .block
    else if command = "tx" then ((Transaction.deserialize payload).mapError .decode).map .tx
    else .error (.unsupportedCommand command)
  return ⟨command, decoded⟩

/-! ## Headers -/

/-- A printable name of at most twelve bytes. -/
structure ValidName (bytes : Bytes) : Prop where
  ne_nil : bytes ≠ []
  length_le : bytes.length ≤ commandLength
  printable : ∀ byte ∈ bytes, 0x20 ≤ byte ∧ byte ≤ 0x7e

theorem fromUtf8_eq_some_iff {bytes : Bytes} {s : String} :
    fromUtf8 bytes = some s ↔ utf8 s = bytes := by
  have hbytes : s.toByteArray = ⟨bytes.toArray⟩ ↔ utf8 s = bytes := by
    constructor
    · intro h
      rw [utf8, h]
    · rintro rfl
      rfl
  rw [← hbytes, fromUtf8, String.fromUTF8?]
  split
  · rename_i hvalid
    constructor
    · intro h
      rw [← Option.some.inj h]
      rfl
    · intro h
      exact congrArg some (String.toByteArray_inj.mp h.symm)
  · rename_i hinvalid
    refine ⟨(fun h ↦ nomatch h), fun h ↦ (hinvalid ?_).elim⟩
    exact h ▸ s.isValidUTF8

theorem all_printable_iff {bytes : Bytes} :
    (bytes.all fun byte ↦ 0x20 ≤ byte ∧ byte ≤ 0x7e) = true ↔
      ∀ byte ∈ bytes, 0x20 ≤ byte ∧ byte ≤ 0x7e := by
  simp only [List.all_eq_true, decide_eq_true_eq]

/-- A validated command name. -/
structure Command where
  asStr : String
  valid : ValidName (utf8 asStr)

namespace Command

def fromHeaderBytes (bytes : List.Vector UInt8 12) : Except NetError Command :=
  let stop := (bytes.toList.findIdx? (· == 0)).getD commandLength
  let commandBytes := bytes.toList.take stop
  if hempty : commandBytes = [] then .error .invalidCommand
  else if hprintable : ¬ commandBytes.all fun byte ↦ 0x20 ≤ byte ∧ byte ≤ 0x7e then
    .error .invalidCommand
  else if ∃ byte ∈ bytes.toList.drop stop, byte ≠ 0 then .error .invalidCommand
  else
    match hname : fromUtf8 commandBytes with
    | none => .error .invalidCommand
    | some name =>
        .ok ⟨name, by
          rw [fromUtf8_eq_some_iff.mp hname]
          exact ⟨hempty, (List.length_take_le' _ _).trans_eq bytes.toList_length,
            all_printable_iff.mp (not_not.mp hprintable)⟩⟩

def encode (name : String) : Except NetError (List.Vector UInt8 12) :=
  if hlength : utf8 name = [] ∨ commandLength < (utf8 name).length then .error .invalidCommand
  else if ¬ (utf8 name).all fun byte ↦ 0x20 ≤ byte ∧ byte ≤ 0x7e then .error .invalidCommand
  else
    .ok ⟨utf8 name ++ List.replicate (commandLength - (utf8 name).length) 0, by
      rw [List.length_append, List.length_replicate]
      exact Nat.add_sub_cancel' (Nat.not_lt.mp (not_or.mp hlength).2)⟩

end Command

structure MessageHeader where
  magic : List.Vector UInt8 4
  command : Command
  payloadLen : UInt32
  checksum : List.Vector UInt8 4

section

variable [Crypto]

def checksum (payload : Bytes) : List.Vector UInt8 4 :=
  ⟨(sha256d payload).toList.take 4, by simp⟩

namespace MessageHeader

/-- The bytes of an array from `start` on. -/
def field {n : ℕ} (bytes : List.Vector UInt8 n) (start length : ℕ) (h : start + length ≤ n) :
    List.Vector UInt8 length :=
  ⟨(bytes.toList.drop start).take length, by simp; omega⟩

def decode (bytes : List.Vector UInt8 24) (expectedMagic : List.Vector UInt8 4)
    (maxPayload : ℕ) : Except NetError MessageHeader :=
  let magic := field bytes 0 4 (by decide)
  if magic ≠ expectedMagic then .error .invalidMagic
  else
    match Command.fromHeaderBytes (field bytes 4 12 (by decide)) with
    | .error e => .error e
    | .ok command =>
        let payloadLen := u32FromLeBytes (field bytes 16 4 (by decide)).toList
        if maxPayload < payloadLen.toNat then .error (.payloadTooLarge payloadLen maxPayload)
        else .ok ⟨magic, command, payloadLen, field bytes 20 4 (by decide)⟩

def encode (command : String) (payload : Bytes) (magic : List.Vector UInt8 4)
    (maxPayload : ℕ) : Except NetError (List.Vector UInt8 24) :=
  if maxPayload < payload.length then
    .error (.payloadTooLarge (UInt32.ofNat payload.length) maxPayload)
  else
    match Command.encode command with
    | .error e => .error e
    | .ok commandBytes =>
        .ok ⟨magic.toList ++ commandBytes.toList ++
          u32ToLeBytes (UInt32.ofNat payload.length) ++ (Bitrst.checksum payload).toList, by
            simp only [List.length_append, List.Vector.toList_length]
            rfl⟩

def verifyChecksum (header : MessageHeader) (payload : Bytes) : Except NetError Unit :=
  if Bitrst.checksum payload ≠ header.checksum then
    .error (.checksumMismatch header.command.asStr)
  else .ok ()

end MessageHeader

/-! ## Framing -/

/-- The bytes read and those left on the stream. -/
def readExactOrClosed (length : ℕ) (stream : Bytes) :
    Except NetError (List.Vector UInt8 length × Bytes) :=
  if hlength : stream.length < length then .error .connectionClosed
  else .ok (⟨stream.take length, List.length_take_of_le (Nat.not_lt.mp hlength)⟩,
    stream.drop length)

/-- The message read and what is left on the stream. -/
def readMessage (network : Network) (stream : Bytes) : Except NetError (Message × Bytes) := do
  let (headerBytes, stream) ← readExactOrClosed messageHeaderSize stream
  let header ← MessageHeader.decode headerBytes network.magic maxPayloadSize
  let (payload, stream) ← readExactOrClosed header.payloadLen.toNat stream
  header.verifyChecksum payload.toList
  let message ← decodePayload header.command.asStr payload.toList
  return (message, stream)

/-- The bytes that are written. -/
def writeMessage (network : Network) (message : Message) : Except NetError Bytes := do
  let (command, payload) ← encodePayload message
  let header ← MessageHeader.encode command payload network.magic maxPayloadSize
  return header.toList ++ payload

end

end Bitrst
