import Bitrst.MessageRoundTrip
import Bitrst.Support.BufferedReader

/-!
# Reading messages through a buffer

`FramedReader` keeps what it has read in a buffer, so a call of it can be dropped
whenever it waits for bytes.  Its calls return the messages that
`read_message` finds on the same stream in one piece.
-/

namespace Bitrst

open Support

section

variable [Crypto]

/-- The result of `read_message` and what is left on the stream, also where it fails. -/
def readMessageOn (network : Network) (stream : Bytes) : Except NetError Message × Bytes :=
  match readExactOrClosed messageHeaderSize stream with
  | .error e => (.error e, [])
  | .ok (headerBytes, stream) =>
      match MessageHeader.decode headerBytes network.magic maxPayloadSize with
      | .error e => (.error e, stream)
      | .ok header =>
          match readExactOrClosed header.payloadLen.toNat stream with
          | .error e => (.error e, [])
          | .ok (payload, stream) =>
              (do
                header.verifyChecksum payload.toList
                decodePayload header.command.asStr payload.toList, stream)

/-- Calls of `read_message`, one after the other. -/
def readMessages (network : Network) : ℕ → Bytes → List (Except NetError Message)
  | 0, _ => []
  | n + 1, stream =>
      (readMessageOn network stream).1 :: readMessages network n (readMessageOn network stream).2

theorem readMessage_eq_readMessageOn (network : Network) (stream : Bytes) :
    readMessage network stream =
      (readMessageOn network stream).1.map (·, (readMessageOn network stream).2) := by
  unfold readMessage readMessageOn
  cases readExactOrClosed messageHeaderSize stream with
  | error e => rfl
  | ok first =>
      obtain ⟨headerBytes, stream⟩ := first
      simp only [bind, Except.bind]
      cases MessageHeader.decode headerBytes network.magic maxPayloadSize with
      | error e => rfl
      | ok header =>
          simp only
          cases readExactOrClosed header.payloadLen.toNat stream with
          | error e => rfl
          | ok second =>
              obtain ⟨payload, rest⟩ := second
              simp only
              cases header.verifyChecksum payload.toList with
              | error e => rfl
              | ok _ =>
                  simp only
                  cases decodePayload header.command.asStr payload.toList <;> rfl

namespace FramedReader

/-- Where a call waits for bytes: in its first loop, or in the second with the header. -/
inductive Point
  | header
  | payload (header : MessageHeader)

/-- From the second loop on.  The buffer advances before the checksum is verified. -/
def readPayload (header : MessageHeader) (buffer : Bytes) :
    Point ⊕ (Except NetError Message × Bytes) :=
  let total := messageHeaderSize + header.payloadLen.toNat
  if buffer.length < total then .inl (.payload header)
  else
    let payload := (buffer.take total).drop messageHeaderSize
    .inr (do
      header.verifyChecksum payload
      decodePayload header.command.asStr payload, buffer.drop total)

/-- `FramedReader::read_message` from one await to the next. -/
def readMessage (network : Network) : Point → Bytes → Point ⊕ (Except NetError Message × Bytes)
  | .header, buffer =>
      if hlength : buffer.length < messageHeaderSize then .inl .header
      else
        match MessageHeader.decode
          ⟨buffer.take messageHeaderSize, List.length_take_of_le (Nat.not_lt.mp hlength)⟩
          network.magic maxPayloadSize with
        | .error e => .inr (.error e, buffer)
        | .ok header => readPayload header buffer
  | .payload header, buffer => readPayload header buffer

theorem readPayload_inl {header : MessageHeader} {buffer : Bytes} {next : Point}
    (h : readPayload header buffer = .inl next) : next = .payload header := by
  simp only [readPayload] at h
  split at h
  · exact (Sum.inl.inj h).symm
  · cases h

/-- A call that has a header goes on to the payload. -/
theorem readMessage_header {network : Network} {bytes : List.Vector UInt8 24}
    {header : MessageHeader} {buffer : Bytes} (hlength : ¬ buffer.length < messageHeaderSize)
    (hbytes : buffer.take messageHeaderSize = bytes.toList)
    (hdecode : MessageHeader.decode bytes network.magic maxPayloadSize = .ok header) :
    readMessage network .header buffer = readPayload header buffer := by
  have hsame : (⟨buffer.take messageHeaderSize, List.length_take_of_le (Nat.not_lt.mp hlength)⟩ :
      List.Vector UInt8 24) = bytes := List.Vector.toList_injective hbytes
  rw [← hsame] at hdecode
  simp only [readMessage, dif_neg hlength, hdecode]

/-- The header that a call remembers is the one that a new call decodes. -/
theorem readMessage_resume {network : Network} {point next : Point} {buffer : Bytes}
    (h : readMessage network point buffer = .inl next) (more : Bytes) :
    readMessage network next (buffer ++ more) = readMessage network point (buffer ++ more) := by
  cases point with
  | payload header =>
      rw [readPayload_inl h]
  | header =>
      by_cases hlength : buffer.length < messageHeaderSize
      · rw [readMessage, dif_pos hlength] at h
        rw [← Sum.inl.inj h]
      · have hmore : ¬ (buffer ++ more).length < messageHeaderSize := by
          rw [List.length_append]
          omega
        have htake : (buffer ++ more).take messageHeaderSize = buffer.take messageHeaderSize :=
          List.take_append_of_le_length (Nat.not_lt.mp hlength)
        rw [readMessage, dif_neg hlength] at h
        generalize hbytes : (⟨buffer.take messageHeaderSize,
          List.length_take_of_le (Nat.not_lt.mp hlength)⟩ : List.Vector UInt8 24) = bytes at h
        have hlist : (buffer ++ more).take messageHeaderSize = List.Vector.toList bytes := by
          rw [htake, ← hbytes]
          rfl
        cases hdecode : MessageHeader.decode bytes network.magic maxPayloadSize with
        | error e =>
            rw [hdecode] at h
            cases h
        | ok header =>
            rw [hdecode] at h
            rw [readPayload_inl h, readMessage_header hmore hlist hdecode]
            rfl

def reader (network : Network) :
    BufferedReader UInt8 Point (Except NetError Message) where
  start := .header
  proceed := readMessage network
  closed := .error .connectionClosed
  resume h more := readMessage_resume h more
  starts := ⟨.header, rfl⟩

theorem readPayload_waits {header : MessageHeader} {buffer : Bytes}
    (h : buffer.length < messageHeaderSize + header.payloadLen.toNat) :
    readPayload header buffer = .inl (.payload header) := if_pos h

section

variable {network : Network} {bytes : List.Vector UInt8 24} {header : MessageHeader}
  {payload : Bytes}

/-- A call that has the whole message. -/
theorem readMessage_whole
    (hdecode : MessageHeader.decode bytes network.magic maxPayloadSize = .ok header)
    (hlength : payload.length = header.payloadLen.toNat) (rest : Bytes) :
    readMessage network .header (bytes.toList ++ payload ++ rest) =
      .inr (do
        header.verifyChecksum payload
        decodePayload header.command.asStr payload, rest) := by
  have hsize : bytes.toList.length = messageHeaderSize := bytes.toList_length
  have htotal : (bytes.toList ++ payload).length =
      messageHeaderSize + header.payloadLen.toNat := by
    rw [List.length_append, hsize, hlength]
  have hfull : ¬ (bytes.toList ++ payload ++ rest).length <
      messageHeaderSize + header.payloadLen.toNat := by
    rw [List.length_append, htotal]
    omega
  have hbytes : (bytes.toList ++ payload ++ rest).take messageHeaderSize = bytes.toList := by
    rw [List.append_assoc, List.take_left' hsize]
  rw [readMessage_header (by omega) hbytes hdecode]
  simp only [readPayload, if_neg hfull, List.take_left' htotal, List.drop_left' htotal,
    List.drop_left' hsize]

/-- A call that has a part of the message. -/
theorem readMessage_part
    (hdecode : MessageHeader.decode bytes network.magic maxPayloadSize = .ok header)
    (hlength : payload.length = header.payloadLen.toNat) {buffer : Bytes}
    (hpart : buffer <+: bytes.toList ++ payload) (hne : buffer ≠ bytes.toList ++ payload) :
    ∃ next, readMessage network .header buffer = .inl next := by
  have hsize : bytes.toList.length = messageHeaderSize := bytes.toList_length
  have hshort : buffer.length < messageHeaderSize + header.payloadLen.toNat := by
    rw [← hlength, ← hsize, ← List.length_append]
    exact lt_of_le_of_ne hpart.length_le fun hsame ↦ hne (hpart.eq_of_length hsame)
  by_cases hfirst : buffer.length < messageHeaderSize
  · exact ⟨.header, by rw [readMessage, dif_pos hfirst]⟩
  · have hbytes : buffer.take messageHeaderSize = bytes.toList := by
      obtain ⟨missing, hmissing⟩ := hpart
      have hsame := congrArg (List.take messageHeaderSize) hmissing
      rwa [List.take_append_of_le_length (Nat.not_lt.mp hfirst), List.take_left' hsize] at hsame
    refine ⟨.payload header, ?_⟩
    rw [readMessage_header hfirst hbytes hdecode]
    exact readPayload_waits hshort

theorem readMessageOn_eq {stream stream' rest : Bytes}
    {payload : List.Vector UInt8 header.payloadLen.toNat}
    (hfirst : readExactOrClosed messageHeaderSize stream = .ok (bytes, stream'))
    (hdecode : MessageHeader.decode bytes network.magic maxPayloadSize = .ok header)
    (hsecond : readExactOrClosed header.payloadLen.toNat stream' = .ok (payload, rest)) :
    readMessageOn network stream = (do
      header.verifyChecksum payload.toList
      decodePayload header.command.asStr payload.toList, rest) := by
  simp only [readMessageOn, hfirst, hdecode, hsecond]

end

/-- A written message is a frame, of which `read_message` makes the same result. -/
theorem written_frame {network : Network} {message : Message} {bytes : Bytes}
    (h : writeMessage network message = .ok bytes) :
    ∃ result, (reader network).Frame bytes result ∧
      ∀ rest, readMessageOn network (bytes ++ rest) = (result, rest) := by
  obtain ⟨payload, headerBytes, -, hheader, rfl⟩ := writeMessage_ok h
  have hlimit : maxPayloadSize < 2 ^ 32 := by decide
  obtain ⟨hfits, -⟩ := MessageHeader.encode_ok hheader
  obtain ⟨valid, hdecode⟩ := MessageHeader.decode_encode hlimit hheader
  have hlength : payload.length = (UInt32.ofNat payload.length).toNat :=
    (UInt32.toNat_ofNat_of_lt' (hfits.trans_lt hlimit)).symm
  refine ⟨_, ⟨readMessage_whole hdecode hlength, readMessage_part hdecode hlength⟩, fun rest ↦ ?_⟩
  have hfirst := readExactOrClosed_append headerBytes.toList_length (payload ++ rest)
  have hsecond := readExactOrClosed_append hlength rest
  rw [List.append_assoc]
  exact readMessageOn_eq hfirst hdecode hsecond

/-- The bytes of written messages are their frames, and `read_message` goes through the same
results. -/
theorem written_frames {network : Network} {messages : List Message} {written : List Bytes}
    (h : List.Forall₂ (fun message bytes ↦ writeMessage network message = .ok bytes)
      messages written) :
    ∃ expected, expected.length = messages.length ∧
      (reader network).Frames written.flatten expected ∧
        ∀ n, readMessages network n written.flatten = (reader network).results n expected := by
  induction h with
  | nil =>
      refine ⟨[], rfl, .nil, fun n ↦ ?_⟩
      induction n with
      | zero => rfl
      | succ n ih =>
          rw [readMessages, BufferedReader.results, ← ih]
          rfl
  | @cons message bytes messages written hmessage _ ih =>
      obtain ⟨expected, hcount, hframes, hreads⟩ := ih
      obtain ⟨result, hframe, hread⟩ := written_frame hmessage
      refine ⟨result :: expected, congrArg (· + 1) hcount, .cons hframe hframes, fun n ↦ ?_⟩
      cases n with
      | zero => rfl
      | succ n => rw [List.flatten_cons, readMessages, hread, BufferedReader.results, hreads]

/-- Before the first call, with the reads that the stream is cut into. -/
def opened (chunks : List Bytes) : BufferedReader.State UInt8 Point := ⟨[], none, chunks⟩

end FramedReader

open FramedReader in
/-- However the bytes of written messages are cut into reads and wherever calls are dropped, the
calls that complete return what as many calls of `read_message` return on the whole bytes; these
are the messages and then the end of the stream, which is found when the polls outnumber the
dropped calls by enough. -/
theorem framedReader_readMessages {network : Network} {messages : List Message}
    {written chunks : List Bytes}
    (hwritten : List.Forall₂ (fun message bytes ↦ writeMessage network message = .ok bytes)
      messages written)
    (hchunks : chunks.flatten = written.flatten) (hnonempty : ∀ chunk ∈ chunks, chunk ≠ [])
    (events : List BufferedReader.Event) :
    (reader network).run events (opened chunks) =
      readMessages network ((reader network).run events (opened chunks)).length
        written.flatten ∧
    (∀ n, readMessages network (messages.length + n) written.flatten =
      readMessages network messages.length written.flatten ++
        List.replicate n (.error .connectionClosed)) ∧
    (events.count .cancel + 2 * messages.length + chunks.length + 1 < events.count .poll →
      messages.length < ((reader network).run events (opened chunks)).length) := by
  obtain ⟨expected, hcount, hframes, hreads⟩ := written_frames hwritten
  have hawaits : (reader network).Awaits (opened chunks) expected := by
    refine ⟨?_, hnonempty, fun _ hpoint ↦ nomatch hpoint⟩
    rw [← hchunks] at hframes
    exact hframes
  refine ⟨?_, fun n ↦ ?_, fun henough ↦ ?_⟩
  · rw [hreads]
    exact hawaits.run events
  · have hall := (reader network).results_append 0 expected
    rw [Nat.add_zero, List.replicate_zero, List.append_nil] at hall
    rw [hreads, hreads, ← hcount, BufferedReader.results_append, hall]
    rfl
  · rw [← hcount] at henough ⊢
    apply hawaits.finishes
    simp only [BufferedReader.State.fuel, opened, Option.isSome_none, Bool.false_eq_true, if_false]
    omega

end

end Bitrst

namespace Bitrst.Sample

open FramedReader Support.BufferedReader

/-- A call that is dropped after two bytes, and enough calls to come to the end. -/
def verackPolls : List Event := [.poll, .poll, .poll, .cancel] ++ List.replicate 30 .poll

/-- A message that comes byte by byte. -/
theorem verack_framed : ∃ bytes, writeMessage .mainnet Message.verack = .ok bytes ∧
    (reader .mainnet).run verackPolls (FramedReader.opened (bytes.map ([·]))) =
      readMessages .mainnet ((reader .mainnet).run verackPolls
        (FramedReader.opened (bytes.map ([·])))).length [bytes].flatten ∧
    (∀ n, readMessages .mainnet ([Message.verack].length + n) [bytes].flatten =
      readMessages .mainnet [Message.verack].length [bytes].flatten ++
        List.replicate n (.error .connectionClosed)) ∧
    [Message.verack].length < ((reader .mainnet).run verackPolls
      (FramedReader.opened (bytes.map ([·])))).length := by
  obtain ⟨bytes, hwritten, hlength⟩ :
      ∃ bytes, writeMessage .mainnet Message.verack = .ok bytes ∧ bytes.length = 24 := by
    have hreached : (writeMessage .mainnet Message.verack).map List.length = .ok 24 := by
      decide +kernel
    exact map_ok hreached
  have hchunks : (bytes.map ([·])).flatten = [bytes].flatten := by
    rw [← List.flatMap_def, List.flatMap_singleton', List.flatten_singleton]
  obtain ⟨hresults, hclosed, hfinished⟩ :=
    framedReader_readMessages (.cons hwritten .nil) hchunks (by simp) verackPolls
  refine ⟨bytes, hwritten, hresults, hclosed, hfinished ?_⟩
  rw [List.length_map, hlength]
  decide

end Bitrst.Sample
