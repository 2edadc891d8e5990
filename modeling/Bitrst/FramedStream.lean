import Bitrst.FramedReader
import Bitrst.Support.StreamReader

/-!
# Streams that no writer wrote

What a peer sends need not be messages.  Calls of the buffering `read_message`
still return the same results however the bytes come in reads and wherever calls
are dropped.  Up to the first error these are the results of the plain
`read_message`; behind it the two can differ, as a refused header stays in the
buffer.
-/

namespace Bitrst

open Support

/-- The results up to the first error, which is the last of them. -/
def untilError {ε α : Type} : List (Except ε α) → List (Except ε α)
  | [] => []
  | .ok a :: results => .ok a :: untilError results
  | .error e :: _ => [.error e]

section

variable [Crypto] {network : Network}

namespace FramedReader

theorem readPayload_append {header : MessageHeader} {buffer rest : Bytes}
    {result : Except NetError Message} (h : readPayload header buffer = .inr (result, rest))
    (more : Bytes) : readPayload header (buffer ++ more) = .inr (result, rest ++ more) := by
  simp only [readPayload] at h ⊢
  split at h
  · cases h
  · rename_i hlength
    have htotal := Nat.not_lt.mp hlength
    obtain ⟨rfl, rfl⟩ := Prod.mk.inj (Sum.inr.inj h)
    have hmore : ¬ (buffer ++ more).length < messageHeaderSize + header.payloadLen.toNat := by
      rw [List.length_append]
      omega
    rw [if_neg hmore, List.take_append_of_le_length htotal, List.drop_append_of_le_length htotal]

/-- A call that refuses a header leaves it in the buffer. -/
theorem readMessage_refused {bytes : List.Vector UInt8 24} {buffer : Bytes} {e : NetError}
    (hlength : ¬ buffer.length < messageHeaderSize)
    (hbytes : buffer.take messageHeaderSize = bytes.toList)
    (hdecode : MessageHeader.decode bytes network.magic maxPayloadSize = .error e) :
    readMessage network .header buffer = .inr (.error e, buffer) := by
  have hsame : (⟨buffer.take messageHeaderSize, List.length_take_of_le (Nat.not_lt.mp hlength)⟩ :
      List.Vector UInt8 24) = bytes := List.Vector.toList_injective hbytes
  rw [← hsame] at hdecode
  simp only [readMessage, dif_neg hlength, hdecode]

omit [Crypto] in
theorem exists_header {stream : Bytes} (hlength : ¬ stream.length < messageHeaderSize) :
    ∃ bytes : List.Vector UInt8 24, stream.take messageHeaderSize = bytes.toList ∧
      readExactOrClosed messageHeaderSize stream =
        .ok (bytes, stream.drop messageHeaderSize) := by
  refine ⟨⟨stream.take messageHeaderSize, List.length_take_of_le (Nat.not_lt.mp hlength)⟩, rfl, ?_⟩
  rw [readExactOrClosed, dif_neg hlength]
  rfl

theorem readMessage_append {point : Point} {buffer rest : Bytes}
    {result : Except NetError Message}
    (h : readMessage network point buffer = .inr (result, rest)) (more : Bytes) :
    readMessage network point (buffer ++ more) = .inr (result, rest ++ more) := by
  cases point with
  | payload header => exact readPayload_append h more
  | header =>
      by_cases hlength : buffer.length < messageHeaderSize
      · rw [readMessage, dif_pos hlength] at h
        cases h
      · obtain ⟨bytes, hbytes, -⟩ := exists_header hlength
        have hmore : ¬ (buffer ++ more).length < messageHeaderSize := by
          rw [List.length_append]
          omega
        have htake : (buffer ++ more).take messageHeaderSize = bytes.toList :=
          (List.take_append_of_le_length (Nat.not_lt.mp hlength)).trans hbytes
        cases hdecode : MessageHeader.decode bytes network.magic maxPayloadSize with
        | error e =>
            rw [readMessage_refused hlength hbytes hdecode] at h
            rw [readMessage_refused hmore htake hdecode]
            obtain ⟨rfl, rfl⟩ := Prod.mk.inj (Sum.inr.inj h)
            rfl
        | ok header =>
            rw [readMessage_header hlength hbytes hdecode] at h
            rw [readMessage_header hmore htake hdecode]
            exact readPayload_append h more

theorem reader_local (network : Network) : (reader network).Local := readMessage_append

/-- A call on the whole stream and the plain `read_message` make the same of it, and leave the
same behind unless it is an error. -/
theorem proceed_readMessageOn (network : Network) (stream : Bytes) :
    (∃ next, readMessage network .header stream = .inl next ∧
      (readMessageOn network stream).1 = .error .connectionClosed) ∨
    ∃ result rest, readMessage network .header stream = .inr (result, rest) ∧
      (readMessageOn network stream).1 = result ∧
        ∀ message, result = .ok message → (readMessageOn network stream).2 = rest := by
  by_cases hlength : stream.length < messageHeaderSize
  · refine .inl ⟨.header, by rw [readMessage, dif_pos hlength], ?_⟩
    rw [readMessageOn, readExactOrClosed, dif_pos hlength]
  · obtain ⟨bytes, hbytes, hfirst⟩ := exists_header hlength
    cases hdecode : MessageHeader.decode bytes network.magic maxPayloadSize with
    | error e =>
        refine .inr ⟨.error e, stream, readMessage_refused hlength hbytes hdecode, ?_,
          fun _ h ↦ by cases h⟩
        simp only [readMessageOn, hfirst, hdecode]
    | ok header =>
        have hproceed : readMessage network .header stream = readPayload header stream :=
          readMessage_header hlength hbytes hdecode
        by_cases hpayload : stream.length < messageHeaderSize + header.payloadLen.toNat
        · have hsecond : readExactOrClosed header.payloadLen.toNat
              (stream.drop messageHeaderSize) = .error .connectionClosed := by
            rw [readExactOrClosed, dif_pos (by rw [List.length_drop]; omega)]
          refine .inl ⟨.payload header, hproceed.trans (readPayload_waits hpayload), ?_⟩
          simp only [readMessageOn, hfirst, hdecode, hsecond]
        · have hlong : ¬ (stream.drop messageHeaderSize).length < header.payloadLen.toNat := by
            rw [List.length_drop]
            omega
          have hsecond : readExactOrClosed header.payloadLen.toNat
              (stream.drop messageHeaderSize) = .ok (⟨_, List.length_take_of_le
                (Nat.not_lt.mp hlong)⟩, (stream.drop messageHeaderSize).drop
                  header.payloadLen.toNat) := by
            rw [readExactOrClosed, dif_neg hlong]
          have hread := readMessageOn_eq hfirst hdecode hsecond
          refine .inr ⟨_, _, hproceed.trans (if_neg hpayload), ?_, fun _ _ ↦ ?_⟩
          · rw [hread, List.drop_take, Nat.add_sub_cancel_left]
            rfl
          · rw [hread, List.drop_drop]

/-- Up to the first error, buffering makes no difference. -/
theorem untilError_reads (n : ℕ) (stream : Bytes) :
    untilError ((reader network).reads n stream) =
      untilError (readMessages network n stream) := by
  induction n generalizing stream with
  | zero => rfl
  | succ n ih =>
      rw [readMessages]
      rcases proceed_readMessageOn network stream with
        ⟨next, hwaits, hclosed⟩ | ⟨result, rest, hresult, hsame, hrest⟩
      · rw [BufferedReader.reads_waits hwaits, hclosed]
        rfl
      · rw [BufferedReader.reads_result hresult, hsame]
        cases result with
        | error e => rfl
        | ok message => rw [untilError, untilError, ih rest, hrest message rfl]

theorem opened_underway (network : Network) {chunks : List Bytes}
    (hnonempty : ∀ chunk ∈ chunks, chunk ≠ []) :
    (reader network).Underway (opened chunks) := ⟨hnonempty, fun _ hpoint ↦ nomatch hpoint⟩

end FramedReader

open FramedReader in
/-- Whatever the bytes are, the completed calls return the same however these come in reads and
wherever calls are dropped; up to the first error they return what `read_message` returns on the
whole bytes; and the polls that give no result are no more than one for each read, each dropped
call and each result, and one. -/
theorem framedReader_any_stream {chunks : List Bytes} (hnonempty : ∀ chunk ∈ chunks, chunk ≠ [])
    (events : List BufferedReader.Event) :
    (reader network).run events (opened chunks) =
      (reader network).reads ((reader network).run events (opened chunks)).length
        chunks.flatten ∧
    untilError ((reader network).run events (opened chunks)) =
      untilError (readMessages network ((reader network).run events (opened chunks)).length
        chunks.flatten) ∧
    events.count .poll ≤ chunks.length + 1 +
      2 * ((reader network).run events (opened chunks)).length + events.count .cancel := by
  have hunderway := opened_underway network hnonempty
  have hrun := hunderway.run (reader_local network) events
  refine ⟨hrun, ?_, hunderway.polls_le (reader_local network) events⟩
  rw [hrun, BufferedReader.length_reads]
  exact untilError_reads _ _

end

end Bitrst

namespace Bitrst.Sample

open FramedReader Support.BufferedReader

/-- Zeros instead of a message, in two reads. -/
def zeros : List Bytes := [List.replicate 5 0, List.replicate 25 0]

/-- The header is refused as often as it is read. -/
theorem zeros_refused :
    (reader .mainnet).run [.poll, .poll, .cancel, .poll, .poll, .poll]
        (FramedReader.opened zeros) =
      (reader .mainnet).reads ((reader .mainnet).run
        [.poll, .poll, .cancel, .poll, .poll, .poll] (FramedReader.opened zeros)).length
          zeros.flatten ∧
    untilError ((reader .mainnet).run [.poll, .poll, .cancel, .poll, .poll, .poll]
        (FramedReader.opened zeros)) =
      untilError (readMessages .mainnet ((reader .mainnet).run
        [.poll, .poll, .cancel, .poll, .poll, .poll] (FramedReader.opened zeros)).length
          zeros.flatten) ∧
    [Event.poll, .poll, .cancel, .poll, .poll, .poll].count .poll ≤ zeros.length + 1 +
      2 * ((reader .mainnet).run [.poll, .poll, .cancel, .poll, .poll, .poll]
        (FramedReader.opened zeros)).length +
        [Event.poll, .poll, .cancel, .poll, .poll, .poll].count .cancel :=
  framedReader_any_stream (by decide) _

end Bitrst.Sample
