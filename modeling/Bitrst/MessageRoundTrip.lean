import Bitrst.ChainCoherence
import Bitrst.Messages

/-!
# Messages on the wire

What `read_message` makes of the bytes that `write_message` wrote.  The header
comes back as it was, so the payload reaches its decoder and another network
refuses it.  The payload comes back too, but for two: a version message of an
old protocol has no relay flag on the wire, and a block or transaction may be
larger than its decoder allows.
-/

namespace Bitrst

open Support WireReader

/-! ## Payloads -/

theorem mapDecode_eq {α : Type} (read : WireReader α) (input : Bytes) :
    (mapDecode read).run input = (read.run input).mapError .decode := by
  unfold mapDecode
  simp only [StateT.run]
  cases read input <;> rfl

theorem mapDecode_run {α : Type} {read : WireReader α} {input : Bytes} {result : α × Bytes}
    (h : read.run input = .ok result) : (mapDecode read).run input = .ok result := by
  rw [mapDecode_eq, h]
  rfl

theorem mapDecode_ok {α : Type} {read : WireReader α} {input : Bytes} {result : α × Bytes}
    (h : (mapDecode read).run input = .ok result) : read.run input = .ok result := by
  rw [mapDecode_eq] at h
  cases hrun : read.run input with
  | error e =>
      rw [hrun] at h
      cases h
  | ok result =>
      rw [hrun] at h
      rw [Except.ok.inj h]

theorem reads_mapDecode {α : Type} {valid : α → Prop} {write : α → Bytes} {read : WireReader α}
    (h : Reads valid write read) : Reads valid write (mapDecode read) where
  complete a rest ha := mapDecode_run (h.complete a rest ha)
  sound input a rest hread := h.sound input a rest (mapDecode_ok hread)

theorem InvType.fromU32_eq_some_iff {value : UInt32} {invType : InvType} :
    fromU32 value = some invType ↔ value = invType.toU32 := by
  unfold fromU32
  constructor
  · split
    · rintro ⟨⟩
      assumption
    split
    · rintro ⟨⟩
      assumption
    split
    · rintro ⟨⟩
      assumption
    · exact fun h ↦ nomatch h
  · rintro rfl
    cases invType <;> rfl

theorem reads_invEntry : Reads (fun _ ↦ True) InventoryVector.serialize readInvEntry := by
  have hread : Reads (fun _ ↦ True)
      (fun item : InventoryVector ↦ u32ToLeBytes item.invType.toU32 ++ (item.hash.toList ++ []))
        readInvEntry := by
    apply (reads_mapDecode reads_u32).bind (fun item : InventoryVector ↦ item.invType.toU32)
      fun _ _ ↦ trivial
    intro value _
    cases hvalue : InvType.fromU32 value with
    | none =>
        apply Reads.throw
        rintro item ⟨-, rfl⟩
        rw [InvType.fromU32_eq_some_iff.mpr rfl] at hvalue
        cases hvalue
    | some invType =>
        have hiff : ∀ item : InventoryVector,
            item.invType.toU32 = value ↔ item.invType = invType := by
          intro item
          constructor
          · rintro rfl
            rw [InvType.fromU32_eq_some_iff.mpr rfl] at hvalue
            exact Option.some.inj hvalue
          · rintro rfl
            exact (InvType.fromU32_eq_some_iff.mp hvalue).symm
        apply (reads_mapDecode reads_hash).bind InventoryVector.hash fun _ _ ↦ trivial
        intro hash _
        apply Reads.pure
        intro item
        rw [hiff]
        constructor
        · rintro ⟨⟨-, rfl⟩, rfl⟩
          rfl
        · rintro rfl
          exact ⟨⟨trivial, rfl⟩, rfl⟩
  refine hread.congr (fun _ ↦ Iff.rfl) fun item _ ↦ ?_
  rw [InventoryVector.serialize, List.append_nil]

theorem decodeInventoryList_encode {items : List InventoryVector} {bytes : Bytes}
    (context : String) (h : encodeInventoryList items = .ok bytes) :
    decodeInventoryList bytes context = .ok items := by
  unfold encodeInventoryList at h
  split at h
  · cases h
  rename_i hcount
  obtain rfl := Except.ok.inj h
  have hlimit : maxInvCount < 2 ^ 64 := by decide
  have hrun : ((do
      let count ← mapDecode (readLimitedLen context maxInvCount)
      let items ← readMany readInvEntry count
      mapDecode (finish context)
      return items : Reader UInt8 NetError (List InventoryVector)).run
        (writeCompactSize (UInt64.ofNat items.length) ++
          items.flatMap InventoryVector.serialize)) = .ok (items, []) := by
    rw [(reads_mapDecode (reads_limitedLen hlimit)).run_bind (Nat.not_lt.mp hcount)]
    have hmany := (reads_invEntry.many items.length).run_bind ⟨rfl, fun _ _ ↦ trivial⟩
      (fun items ↦ (do
        mapDecode (finish context)
        return items : Reader UInt8 NetError (List InventoryVector))) []
    rw [List.append_nil] at hmany
    rw [hmany]
    rfl
  unfold decodeInventoryList
  rw [hrun]
  rfl

/-- The version message that is read, where the relay flag is missing. -/
def VersionMessage.received (message : VersionMessage) : VersionMessage :=
  { message with relay := if 60002 ≤ message.version then message.relay else true }

theorem VersionMessage.received_eq_iff (message : VersionMessage) :
    message.received = message ↔ 60002 ≤ message.version ∨ message.relay = true := by
  constructor
  · intro h
    have hrelay := congrArg VersionMessage.relay h
    unfold received at hrelay
    simp only at hrelay
    split at hrelay
    · exact .inl ‹_›
    · exact .inr hrelay.symm
  · intro h
    unfold received
    split
    · rfl
    · rw [← h.resolve_left ‹_›]

theorem readBytes_bind {α : Type} {length : ℕ} {bytes : Bytes} (h : bytes.length = length)
    (context : String) (next : Bytes → WireReader α) (rest : Bytes) :
    (readBytes length context >>= next).run (bytes ++ rest) = (next bytes).run rest :=
  (reads_bytes length).run_bind h next rest

theorem remaining_bind {α : Type} (next : ℕ → WireReader α) (input : Bytes) :
    (remaining >>= next).run input = (next input.length).run input := rfl

theorem readLimitedString_bind {α : Type} {s : String} {maxLen : ℕ} (hlimit : maxLen < 2 ^ 64)
    (hlength : (utf8 s).length ≤ maxLen) (context : String) (next : String → WireReader α)
    (rest : Bytes) :
    (readLimitedString context maxLen >>= next).run
      (writeCompactSize (UInt64.ofNat (utf8 s).length) ++ (utf8 s ++ rest)) =
        (next s).run rest := by
  have hread : (readLimitedString context maxLen).run
      (writeCompactSize (UInt64.ofNat (utf8 s).length) ++ (utf8 s ++ rest)) = .ok (s, rest) := by
    unfold readLimitedString
    rw [(reads_limitedLen hlimit).run_bind hlength, readBytes_bind rfl,
      fromUtf8_eq_some_iff.mpr rfl]
    rfl
  rw [StateT.run_bind, hread]
  rfl

/-- What `decode_version` makes of the end of the message. -/
theorem relay_run (message : VersionMessage) :
    (do
      let left ← remaining
      let relay ←
        if left = 0 then pure true
        else if left = 1 then do
          let flag ← readBytes 1 "relay"
          pure (flag.headD 0 != 0)
        else throw (.trailingBytes "version" left)
      finish "version"
      return { message with relay := relay } : WireReader VersionMessage).run
        (if 60002 ≤ message.version then [if message.relay then 1 else 0] else []) =
      .ok (message.received, []) := by
  rw [remaining_bind, VersionMessage.received]
  split
  · cases hrelay : message.relay <;> rfl
  · rfl

theorem decodeVersion_encode {message : VersionMessage} {bytes : Bytes}
    (h : encodeVersion message = .ok bytes) :
    decodeVersion bytes = .ok message.received := by
  unfold encodeVersion at h
  simp only at h
  split at h
  · cases h
  rename_i hlength
  obtain rfl := Except.ok.inj h
  have hlimit : maxUserAgentLen < 2 ^ 64 := by decide
  have haddress : (List.replicate legacyAddressSize (0 : UInt8)).length = legacyAddressSize :=
    List.length_replicate
  have hwidth : (i64ToLeBytes message.timestamp).length = 8 := rfl
  have htimestamp :
      (u64FromLeBytes (i64ToLeBytes message.timestamp)).toInt64 = message.timestamp := by
    rw [u64FromLeBytes, i64ToLeBytes, leNat_u64ToLeBytes, UInt64.ofNat_toNat,
      Int64.toInt64_toUInt64]
  have hrun := relay_run message
  have hread : readVersion.run (i32ToLeBytes message.version ++ (u64ToLeBytes message.services ++
      (i64ToLeBytes message.timestamp ++ (List.replicate legacyAddressSize 0 ++
        (List.replicate legacyAddressSize 0 ++ (u64ToLeBytes message.nonce ++
          (writeCompactSize (UInt64.ofNat (utf8 message.userAgent).length) ++
            (utf8 message.userAgent ++ (i32ToLeBytes message.startHeight ++
              if 60002 ≤ message.version then [if message.relay then 1 else 0] else []))))))))) =
        .ok (message.received, []) := by
    unfold readVersion
    rw [reads_i32.run_bind trivial, reads_u64.run_bind trivial, readBytes_bind hwidth,
      readBytes_bind haddress, readBytes_bind haddress, reads_u64.run_bind trivial,
      readLimitedString_bind hlimit (Nat.not_lt.mp hlength), reads_i32.run_bind trivial,
      htimestamp]
    exact hrun
  simp only [List.append_assoc]
  rw [decodeVersion, mapDecode_run hread]
  rfl

/-! ## Headers -/

theorem utf8_injective {s s' : String} (h : utf8 s = utf8 s') : s = s' :=
  Option.some.inj ((fromUtf8_eq_some_iff.mpr h).symm.trans (fromUtf8_eq_some_iff.mpr rfl))

/-- A name ends at the first zero byte of its field. -/
theorem Command.stop_eq {name : Bytes} (hprintable : ∀ byte ∈ name, (0x20 : UInt8) ≤ byte)
    (hlength : name.length ≤ commandLength) :
    ((name ++ List.replicate (commandLength - name.length) 0).findIdx? (· == 0)).getD
      commandLength = name.length := by
  have hname : name.findIdx? (· == 0) = none := by
    apply List.findIdx?_eq_none_iff.mpr
    intro byte hbyte
    have hle := UInt8.le_iff_toNat_le.mp (hprintable byte hbyte)
    apply beq_eq_false_iff_ne.mpr
    rintro rfl
    cases hle
  rw [List.findIdx?_append, hname, Option.none_or, List.findIdx?_replicate]
  by_cases hfull : 0 < commandLength - name.length
  · rw [if_pos ⟨hfull, rfl⟩, Option.map_some, Option.getD_some, Nat.zero_add]
  · rw [if_neg fun h ↦ hfull h.1, Option.map_none, Option.getD_none]
    omega

/-- A field that holds a valid name and zeros after it. -/
theorem Command.fromHeaderBytes_eq {bytes : List.Vector UInt8 12} {name : String} (stop : ℕ)
    (valid : ValidName (utf8 name))
    (hstop : (bytes.toList.findIdx? (· == 0)).getD commandLength = stop)
    (htake : bytes.toList.take stop = utf8 name)
    (hdrop : ∀ byte ∈ bytes.toList.drop stop, byte = 0) :
    fromHeaderBytes bytes = .ok ⟨name, valid⟩ := by
  subst hstop
  unfold fromHeaderBytes
  dsimp only
  split
  · rename_i hnil
    rw [htake] at hnil
    exact (valid.ne_nil hnil).elim
  split
  · rename_i hnot
    rw [htake] at hnot
    exact (hnot (all_printable_iff.mpr valid.printable)).elim
  split
  · rename_i hpadding
    obtain ⟨byte, hbyte, hne⟩ := hpadding
    exact (hne (hdrop byte hbyte)).elim
  split
  · rename_i hnone
    rw [htake, fromUtf8_eq_some_iff.mpr rfl] at hnone
    cases hnone
  · rename_i found hsome
    rw [htake, fromUtf8_eq_some_iff] at hsome
    obtain rfl := utf8_injective hsome
    rfl

theorem Command.encode_ok {name : String} {bytes : List.Vector UInt8 12}
    (h : encode name = .ok bytes) : ValidName (utf8 name) ∧
      bytes.toList = utf8 name ++ List.replicate (commandLength - (utf8 name).length) 0 := by
  unfold encode at h
  split at h
  · cases h
  rename_i hlength
  split at h
  · cases h
  rename_i hprintable
  obtain ⟨hempty, hle⟩ := not_or.mp hlength
  rw [← Except.ok.inj h]
  exact ⟨⟨hempty, Nat.not_lt.mp hle, all_printable_iff.mp (not_not.mp hprintable)⟩, rfl⟩

/-- A name comes back from its field. -/
theorem Command.fromHeaderBytes_encode {name : String} {bytes : List.Vector UInt8 12}
    (h : encode name = .ok bytes) :
    fromHeaderBytes bytes = .ok ⟨name, (encode_ok h).1⟩ := by
  obtain ⟨hvalid, hbytes⟩ := encode_ok h
  apply fromHeaderBytes_eq (utf8 name).length
  · rw [hbytes]
    exact stop_eq (fun byte hbyte ↦ (hvalid.printable byte hbyte).1) hvalid.length_le
  · rw [hbytes, List.take_left]
  · rw [hbytes, List.drop_left]
    exact fun byte ↦ List.eq_of_mem_replicate

section

variable [Crypto]

namespace MessageHeader

variable {command : String} {payload : Bytes} {magic expected : List.Vector UInt8 4}
  {maxPayload : ℕ} {bytes : List.Vector UInt8 24}

theorem encode_ok (h : encode command payload magic maxPayload = .ok bytes) :
    payload.length ≤ maxPayload ∧ ∃ commandBytes, Command.encode command = .ok commandBytes ∧
      bytes.toList = magic.toList ++ (commandBytes.toList ++
        (u32ToLeBytes (UInt32.ofNat payload.length) ++ (Bitrst.checksum payload).toList)) := by
  unfold encode at h
  split at h
  · cases h
  rename_i hfits
  cases hcommand : Command.encode command with
  | error e =>
      rw [hcommand] at h
      cases h
  | ok commandBytes =>
      rw [hcommand] at h
      refine ⟨Nat.not_lt.mp hfits, commandBytes, rfl, ?_⟩
      rw [← Except.ok.inj h]
      simp only [List.Vector.toList_mk, List.append_assoc]

omit [Crypto] in
/-- The part of an array between two others. -/
theorem field_toList {n start length : ℕ} {bytes : List.Vector UInt8 n} (before : Bytes)
    (part : Bytes) (after : Bytes) (h : start + length ≤ n)
    (hbytes : bytes.toList = before ++ (part ++ after)) (hstart : before.length = start)
    (hpart : part.length = length) : (field bytes start length h).toList = part := by
  change (bytes.toList.drop start).take length = part
  rw [hbytes, ← hstart, List.drop_left, List.take_left' hpart]

omit [Crypto] in
theorem field_eq {n start length : ℕ} {bytes : List.Vector UInt8 n} (before : Bytes)
    (part : List.Vector UInt8 length) (after : Bytes) (h : start + length ≤ n)
    (hbytes : bytes.toList = before ++ (part.toList ++ after)) (hstart : before.length = start) :
    field bytes start length h = part :=
  List.Vector.toList_injective
    (field_toList before part.toList after h hbytes hstart part.toList_length)

/-- The header comes back, for the magic it was written with. -/
theorem decode_encode (hlimit : maxPayload < 2 ^ 32)
    (h : encode command payload magic maxPayload = .ok bytes) :
    ∃ valid, decode bytes magic maxPayload =
      .ok ⟨magic, ⟨command, valid⟩, UInt32.ofNat payload.length, Bitrst.checksum payload⟩ := by
  obtain ⟨hfits, commandBytes, hcommand, hbytes⟩ := encode_ok h
  have hmagic : field bytes 0 4 (by decide) = magic := field_eq [] magic _ _ hbytes rfl
  have hname : field bytes 4 12 (by decide) = commandBytes :=
    field_eq magic.toList commandBytes _ _ hbytes magic.toList_length
  have hlength : (field bytes 16 4 (by decide)).toList =
      u32ToLeBytes (UInt32.ofNat payload.length) := by
    apply field_toList (magic.toList ++ commandBytes.toList) _ (Bitrst.checksum payload).toList
    · rw [hbytes, List.append_assoc]
    · simp
    · rfl
  have hchecksum : field bytes 20 4 (by decide) = Bitrst.checksum payload := by
    apply field_eq (magic.toList ++ commandBytes.toList ++
      u32ToLeBytes (UInt32.ofNat payload.length)) (Bitrst.checksum payload) []
    · simp only [hbytes, List.append_assoc, List.append_nil]
    · simp only [List.length_append, List.Vector.toList_length]
      rfl
  refine ⟨(Command.encode_ok hcommand).1, ?_⟩
  unfold decode
  have hnot : ¬ maxPayload < (UInt32.ofNat payload.length).toNat := by
    rw [UInt32.toNat_ofNat_of_lt' (hfits.trans_lt hlimit)]
    exact Nat.not_lt.mpr hfits
  simp only [hmagic, hname, hlength, hchecksum, Command.fromHeaderBytes_encode hcommand,
    u32FromLeBytes_toLeBytes]
  rw [if_neg (not_not.mpr rfl), if_neg hnot]

theorem decode_other_magic (h : encode command payload magic maxPayload = .ok bytes)
    (hne : expected ≠ magic) : decode bytes expected maxPayload = .error .invalidMagic := by
  obtain ⟨-, commandBytes, -, hbytes⟩ := encode_ok h
  have hmagic : field bytes 0 4 (by decide) = magic := field_eq [] magic _ _ hbytes rfl
  unfold decode
  rw [hmagic]
  exact if_pos hne.symm

end MessageHeader

/-! ## Framing -/

omit [Crypto] in
theorem readExactOrClosed_append {n : ℕ} {bytes : Bytes} (h : bytes.length = n) (rest : Bytes) :
    readExactOrClosed n (bytes ++ rest) = .ok (⟨bytes, h⟩, rest) := by
  unfold readExactOrClosed
  rw [dif_neg (by rw [List.length_append]; omega)]
  simp only [List.take_left' h, List.drop_left' h]

omit [Crypto] in
theorem encodePayload_command {message : Message} {command : String} {payload : Bytes}
    (h : encodePayload message = .ok (command, payload)) : command = message.command := by
  have hmap : ∀ {result : Except NetError Bytes},
      result.map (message.command, ·) = .ok (command, payload) → command = message.command := by
    intro result hresult
    cases result with
    | error e => cases hresult
    | ok bytes => exact (Prod.mk.inj (Except.ok.inj hresult)).1.symm
  unfold encodePayload at h
  split at h
  · exact (Prod.mk.inj (Except.ok.inj h)).1.symm
  · exact hmap h
  · exact hmap h
  · exact hmap h
  · exact (Prod.mk.inj (Except.ok.inj h)).1.symm
  · exact (Prod.mk.inj (Except.ok.inj h)).1.symm

theorem readMessage_eq {network : Network} {stream stream' rest : Bytes}
    {bytes : List.Vector UInt8 24} {header : MessageHeader}
    {payload : List.Vector UInt8 header.payloadLen.toNat}
    (hfirst : readExactOrClosed messageHeaderSize stream = .ok (bytes, stream'))
    (hheader : MessageHeader.decode bytes network.magic maxPayloadSize = .ok header)
    (hsecond : readExactOrClosed header.payloadLen.toNat stream' = .ok (payload, rest))
    (hchecksum : header.verifyChecksum payload.toList = .ok ()) :
    readMessage network stream =
      (decodePayload header.command.asStr payload.toList).map (·, rest) := by
  simp only [readMessage, hfirst, hheader, hsecond, hchecksum, bind, Except.bind]
  cases decodePayload header.command.asStr payload.toList <;> rfl

theorem readMessage_error {network : Network} {stream stream' : Bytes}
    {bytes : List.Vector UInt8 24} {e : NetError}
    (hfirst : readExactOrClosed messageHeaderSize stream = .ok (bytes, stream'))
    (hheader : MessageHeader.decode bytes network.magic maxPayloadSize = .error e) :
    readMessage network stream = .error e := by
  simp only [readMessage, hfirst, hheader, bind, Except.bind]

theorem writeMessage_ok {network : Network} {message : Message} {bytes : Bytes}
    (h : writeMessage network message = .ok bytes) :
    ∃ payload header, encodePayload message = .ok (message.command, payload) ∧
      MessageHeader.encode message.command payload network.magic maxPayloadSize = .ok header ∧
        bytes = header.toList ++ payload := by
  unfold writeMessage at h
  cases hencode : encodePayload message with
  | error e =>
      rw [hencode] at h
      cases h
  | ok encoded =>
      obtain ⟨command, payload⟩ := encoded
      obtain rfl := encodePayload_command hencode
      simp only [hencode, bind, Except.bind] at h
      cases hheader : MessageHeader.encode message.command payload network.magic
          maxPayloadSize with
      | error e =>
          rw [hheader] at h
          cases h
      | ok header =>
          rw [hheader] at h
          exact ⟨payload, header, rfl, hheader, (Except.ok.inj h).symm⟩

/-- A payload within the limit is written under a valid name. -/
theorem exists_writeMessage {network : Network} {message : Message} {payload : Bytes}
    {name : List.Vector UInt8 12}
    (hencode : encodePayload message = .ok (message.command, payload))
    (hfits : payload.length ≤ maxPayloadSize) (hname : Command.encode message.command = .ok name) :
    ∃ bytes, writeMessage network message = .ok bytes := by
  simp only [writeMessage, hencode, bind, Except.bind, MessageHeader.encode,
    if_neg (Nat.not_lt.mpr hfits), hname]
  exact ⟨_, rfl⟩

/-- What was written is read up to the decoder of the payload; another network refuses it. -/
theorem readMessage_written {network : Network} {message : Message} {bytes : Bytes}
    (h : writeMessage network message = .ok bytes) :
    ∃ payload, encodePayload message = .ok (message.command, payload) ∧
      payload.length ≤ maxPayloadSize ∧
        (∀ rest, readMessage network (bytes ++ rest) =
          (decodePayload message.command payload).map (·, rest)) ∧
        ∀ (other : Network) (rest : Bytes), other.magic ≠ network.magic →
          readMessage other (bytes ++ rest) = .error .invalidMagic := by
  obtain ⟨payload, header, hencode, hheader, rfl⟩ := writeMessage_ok h
  have hlimit : maxPayloadSize < 2 ^ 32 := by decide
  obtain ⟨hfits, -⟩ := MessageHeader.encode_ok hheader
  obtain ⟨valid, hdecode⟩ := MessageHeader.decode_encode hlimit hheader
  have hlength : payload.length = (UInt32.ofNat payload.length).toNat :=
    (UInt32.toNat_ofNat_of_lt' (hfits.trans_lt hlimit)).symm
  have hfirst : ∀ rest, readExactOrClosed messageHeaderSize
      (header.toList ++ payload ++ rest) = .ok (header, payload ++ rest) := by
    intro rest
    rw [List.append_assoc]
    exact readExactOrClosed_append header.toList_length (payload ++ rest)
  refine ⟨payload, hencode, hfits, fun rest ↦ ?_, fun other rest hne ↦ ?_⟩
  · have hsecond := readExactOrClosed_append hlength rest
    exact readMessage_eq (hfirst rest) hdecode hsecond (if_neg (not_not.mpr rfl))
  · exact readMessage_error (hfirst rest) (MessageHeader.decode_other_magic hheader hne)

/-- A message made by one of its constructors. -/
inductive Message.Built : Message → Prop
  | verack : Built Message.verack
  | version (message : VersionMessage) : Built (Message.version message)
  | inv (items : List InventoryVector) : Built (Message.inv items)
  | getdata (items : List InventoryVector) : Built (Message.getdata items)
  | block (block : Block) : Built (Message.block block)
  | tx (transaction : Transaction) : Built (Message.tx transaction)

/-- The payload comes back: a version message has its relay flag on the wire or sets it, and a
block or transaction is within the limits of its decoder. -/
def MessagePayload.Faithful : MessagePayload → Prop
  | version message => 60002 ≤ message.version ∨ message.relay = true
  | block b => b.WithinLimits
  | tx t => t.WithinLimits
  | _ => True

omit [Crypto] in
/-- Within a format, a decoder gives the value back exactly when it is valid. -/
theorem decoded_iff {α : Type} {valid : α → Prop} {write : α → Bytes} {size : α → ℕ}
    {accept : Bytes → Except DecodeError α} (hformat : Format valid write size accept) {a : α}
    (wrap : α → MessagePayload) (hwrap : Function.Injective wrap) (command : String) :
    ((((accept (write a)).mapError NetError.decode).map wrap).map fun payload ↦
      Message.mk command payload) = .ok ⟨command, wrap a⟩ ↔ valid a := by
  constructor
  · intro h
    cases haccept : accept (write a) with
    | error e =>
        rw [haccept] at h
        cases h
    | ok found =>
        rw [haccept] at h
        obtain rfl := hwrap (Message.mk.inj (Except.ok.inj h)).2
        exact (hformat.written _ _ haccept).1
  · intro h
    rw [hformat.round_trip a h]
    rfl

omit [Crypto] in
theorem map_ok {α β : Type} {result : Except NetError α} {f : α → β} {b : β}
    (h : result.map f = .ok b) : ∃ a, result = .ok a ∧ f a = b := by
  cases result with
  | error e => cases h
  | ok a => exact ⟨a, rfl, Except.ok.inj h⟩

omit [Crypto] in
theorem decodePayload_eq_iff {message : Message} (hbuilt : message.Built) {payload : Bytes}
    (h : encodePayload message = .ok (message.command, payload))
    (hfits : payload.length ≤ maxPayloadSize) :
    decodePayload message.command payload = .ok message ↔ message.payload.Faithful := by
  cases hbuilt with
  | verack =>
      obtain rfl := (Prod.mk.inj (Except.ok.inj h)).2
      exact iff_of_true rfl trivial
  | version message =>
      obtain ⟨bytes, hbytes, hpair⟩ := map_ok h
      obtain rfl := (Prod.mk.inj hpair).2
      have hdecode : decodePayload "version" bytes = .ok (Message.version message.received) := by
        unfold decodePayload
        rw [decodeVersion_encode hbytes]
        rfl
      change decodePayload "version" bytes = .ok (Message.version message) ↔ _
      rw [hdecode, Except.ok.injEq]
      refine Iff.trans ?_ message.received_eq_iff
      exact ⟨fun heq ↦ MessagePayload.version.inj (Message.mk.inj heq).2, congrArg Message.version⟩
  | inv items =>
      obtain ⟨bytes, hbytes, hpair⟩ := map_ok h
      obtain rfl := (Prod.mk.inj hpair).2
      refine iff_of_true ?_ trivial
      change decodePayload "inv" bytes = _
      unfold decodePayload
      rw [decodeInventoryList_encode "inv count" hbytes]
      rfl
  | getdata items =>
      obtain ⟨bytes, hbytes, hpair⟩ := map_ok h
      obtain rfl := (Prod.mk.inj hpair).2
      refine iff_of_true ?_ trivial
      change decodePayload "getdata" bytes = _
      unfold decodePayload
      rw [decodeInventoryList_encode "getdata count" hbytes]
      rfl
  | block b =>
      obtain rfl := (Prod.mk.inj (Except.ok.inj h)).2
      change b.serialize.length ≤ maxBlockSerializedSize at hfits
      rw [Block.length_serialize] at hfits
      have hiff := decoded_iff Block.format (a := b) .block (fun _ _ ↦ MessagePayload.block.inj)
        "block"
      exact hiff.trans (and_iff_right hfits)
  | tx t =>
      obtain rfl := (Prod.mk.inj (Except.ok.inj h)).2
      change t.serialize.length ≤ maxTransactionSerializedSize at hfits
      rw [Transaction.length_serialize] at hfits
      have hiff := decoded_iff Transaction.format (a := t) .tx (fun _ _ ↦ MessagePayload.tx.inj)
        "tx"
      exact hiff.trans (and_iff_right hfits)

/-- A written message is read back as it was exactly when its payload comes back. -/
theorem readMessage_written_iff {network : Network} {message : Message} {bytes : Bytes}
    (hbuilt : message.Built) (hwritten : writeMessage network message = .ok bytes)
    (rest : Bytes) :
    readMessage network (bytes ++ rest) = .ok (message, rest) ↔ message.payload.Faithful := by
  obtain ⟨payload, hpayload, hfits, hread, -⟩ := readMessage_written hwritten
  rw [hread rest, ← decodePayload_eq_iff hbuilt hpayload hfits]
  cases decodePayload message.command payload with
  | error e => exact ⟨(fun h ↦ nomatch h), fun h ↦ nomatch h⟩
  | ok found =>
      constructor
      · intro h
        exact congrArg Except.ok (Prod.mk.inj (Except.ok.inj h)).1
      · intro h
        rw [Except.ok.inj h]
        rfl

/-- A message that is written is refused by another network, and read back as it was exactly
when its payload comes back. -/
theorem message_round_trip {network : Network} {message : Message} {bytes : Bytes}
    (hbuilt : message.Built) (hwritten : writeMessage network message = .ok bytes)
    (rest : Bytes) :
    (readMessage network (bytes ++ rest) = .ok (message, rest) ↔ message.payload.Faithful) ∧
      ∀ other : Network, other.magic ≠ network.magic →
        readMessage other (bytes ++ rest) = .error .invalidMagic := by
  obtain ⟨payload, hpayload, hfits, hread, hother⟩ := readMessage_written hwritten
  exact ⟨readMessage_written_iff hbuilt hwritten rest, fun other ↦ hother other rest⟩

end

end Bitrst

namespace Bitrst.Sample

/-- A version message of an old protocol that asks for no transactions. -/
def oldVersion : VersionMessage := ⟨60001, 0, 0, 0, "", 0, false⟩

def newVersion : VersionMessage := { oldVersion with version := 70016 }

theorem exists_written {message : VersionMessage} (h : ∃ payload,
    encodePayload (Message.version message) = .ok ("version", payload) ∧
      payload.length ≤ maxPayloadSize) :
    ∃ bytes, writeMessage .mainnet (Message.version message) = .ok bytes := by
  obtain ⟨payload, hencode, hfits⟩ := h
  have hname : Command.encode "version" =
      .ok ⟨[0x76, 0x65, 0x72, 0x73, 0x69, 0x6f, 0x6e, 0, 0, 0, 0, 0], rfl⟩ := by
    decide +kernel
  exact exists_writeMessage hencode hfits hname

theorem newVersion_round_trip :
    ∃ bytes, writeMessage .mainnet (Message.version newVersion) = .ok bytes ∧
      (readMessage .mainnet (bytes ++ []) = .ok (Message.version newVersion, []) ↔
        (Message.version newVersion).payload.Faithful) ∧
      ∀ other : Network, other.magic ≠ Network.mainnet.magic →
        readMessage other (bytes ++ []) = .error .invalidMagic := by
  obtain ⟨bytes, hbytes⟩ := @exists_written newVersion ⟨_, rfl, by decide +kernel⟩
  exact ⟨bytes, hbytes, message_round_trip (.version newVersion) hbytes []⟩

/-- The relay flag does not come back. -/
theorem oldVersion_not_read_back : ¬ ∀ (network : Network) (message : Message) (bytes : Bytes),
    message.Built → writeMessage network message = .ok bytes →
      readMessage network bytes = .ok (message, []) := by
  intro h
  obtain ⟨bytes, hbytes⟩ := @exists_written oldVersion ⟨_, rfl, by decide +kernel⟩
  obtain ⟨payload, hpayload, hfits, hread, -⟩ := readMessage_written hbytes
  have hmessage := h _ _ _ (.version oldVersion) hbytes
  have hrest := hread []
  rw [List.append_nil, hmessage] at hrest
  obtain ⟨found, hfound, hpair⟩ := map_ok hrest.symm
  obtain rfl := (Prod.mk.inj hpair).1
  have hfaithful := (decodePayload_eq_iff (.version oldVersion) hpayload hfits).mp hfound
  change 60002 ≤ oldVersion.version ∨ oldVersion.relay = true at hfaithful
  exact absurd hfaithful (by decide)

end Bitrst.Sample
