import Bitrst.FramedReader
import Bitrst.PeerSession
import Mathlib.Logic.Function.Basic

/-!
# Two nodes on one connection

A connection joins the task that opened it and the task that accepted it.  What
one writes reaches the other in order; what the other's reader makes of it is
decided when it is written.  An action is one of the two tasks' or one of their
writers', and a connection can break at any time.
-/

namespace Bitrst

open Support

def ConnectionDirection.opposite : ConnectionDirection → ConnectionDirection
  | .inbound => .outbound
  | .outbound => .inbound

@[simp] theorem ConnectionDirection.opposite_opposite (d : ConnectionDirection) :
    d.opposite.opposite = d := by cases d <;> rfl

theorem ConnectionDirection.opposite_ne (d : ConnectionDirection) : d.opposite ≠ d := by
  cases d <;> decide

theorem ConnectionDirection.eq_or_eq_opposite (d other : ConnectionDirection) :
    other = d ∨ other = d.opposite := by
  cases d <;> cases other <;> decide

/-- A message that tasks send each other once they are connected. -/
structure Message.Application (message : Message) : Prop where
  built : message.Built
  late : message.payload.isHandshake = false

theorem Message.inv_application (items : List InventoryVector) : (inv items).Application :=
  ⟨.inv items, rfl⟩

theorem Message.getdata_application (items : List InventoryVector) :
    (getdata items).Application := ⟨.getdata items, rfl⟩

/-- Only the commands of the handshake carry its payloads. -/
theorem decodePayload_isHandshake {command : String} {payload : Bytes} {message : Message}
    (h : decodePayload command payload = .ok message)
    (hhandshake : message.payload.isHandshake = true) :
    command = "verack" ∨ command = "version" := by
  by_contra hother
  obtain ⟨hverack, hversion⟩ := not_or.mp hother
  have hmap : ∀ {β : Type} {result : Except NetError β} {wrap : β → MessagePayload},
      (∀ b, (wrap b).isHandshake = false) →
        (do
          let decoded ← result.map wrap
          return (⟨command, decoded⟩ : Message)) = .ok message → False := by
    intro β result wrap hwrap hresult
    cases result with
    | error e => cases hresult
    | ok b =>
        obtain rfl := Except.ok.inj hresult
        rw [hwrap b] at hhandshake
        cases hhandshake
  unfold decodePayload at h
  rw [if_neg fun hboth ↦ hverack hboth.1, if_neg hversion] at h
  split at h
  · exact hmap (fun _ ↦ rfl) h
  · split at h
    · exact hmap (fun _ ↦ rfl) h
    · split at h
      · exact hmap (fun _ ↦ rfl) h
      · split at h
        · exact hmap (fun _ ↦ rfl) h
        · cases h

section

variable [Crypto] [Features]

/-! ## What the handlers send -/

omit [Crypto] [Features] in
theorem requestMissingBlock_reply {relay relay' : PeerRelayState} {hash : Hash256} {now : ℕ}
    {node node' : Node} {messages : List Message}
    (h : requestMissingBlock relay hash now node = (.ok (.reply messages), relay', node')) :
    ∀ message ∈ messages, message.Application := by
  unfold requestMissingBlock at h
  split at h
  · cases h
  · cases h
  · split at h
    split at h
    · obtain rfl := RelayAction.reply.inj (Except.ok.inj (Prod.mk.inj h).1)
      intro message hmessage
      rw [List.mem_singleton.mp hmessage]
      exact Message.getdata_application _
    · cases h

omit [Features] in
theorem collectReplies_application (items : List InventoryVector) (node : Node) :
    ∀ message ∈ (collectReplies items node).1, message.Application := by
  induction items generalizing node with
  | nil => exact fun _ h ↦ nomatch h
  | cons item items ih =>
      have hcons : ∀ {first : Message} {node : Node}, first.Application →
          ∀ message ∈ first :: (collectReplies items node).1, message.Application := by
        intro first node hfirst message hmessage
        rcases List.mem_cons.mp hmessage with rfl | hmessage
        · exact hfirst
        · exact ih node message hmessage
      cases hitem : item.invType with
      | block =>
          simp only [collectReplies, hitem]
          split
          · exact hcons ⟨.block _, rfl⟩
          · exact ih _
      | transaction =>
          simp only [collectReplies, hitem]
          split
          · exact hcons ⟨.tx _, rfl⟩
          · exact ih _
      | filteredBlock =>
          simp only [collectReplies, hitem]
          exact ih node

/-- The handlers only send messages that have their place behind the handshake. -/
theorem handlePeerMessage_reply {relay relay' : PeerRelayState} {message : Message} {now : ℕ}
    {node node' : Node} {messages : List Message}
    (h : handlePeerMessage relay message now node = (.ok (.reply messages), relay', node')) :
    ∀ reply ∈ messages, reply.Application := by
  unfold handlePeerMessage at h
  split at h
  · simp only [handleBlock] at h
    split at h
    · split at h <;> cases h
    · split at h <;> cases h
    · exact requestMissingBlock_reply h
    all_goals cases h
  · unfold handleInv at h
    split at h
    · cases h
    · split at h
      · cases h
      · obtain rfl := RelayAction.reply.inj (Except.ok.inj (Prod.mk.inj h).1)
        intro reply hreply
        rw [List.mem_singleton.mp hreply]
        exact Message.getdata_application _
  · rename_i items _
    have hreplies := collectReplies_application items node
    simp only [handleGetdata] at h
    split at h
    · cases h
    · obtain rfl := RelayAction.reply.inj (Except.ok.inj (Prod.mk.inj h).1)
      exact hreplies
  · simp only [handleTx] at h
    split at h <;> cases h
  · cases h
  · cases h

/-! ## What arrives of a message -/

/-- What a reader at the other end makes of a message, unless it cannot be written. -/
def carried (network : Network) (message : Message) : Option (Except NetError Message) :=
  match writeMessage network message with
  | .error _ => none
  | .ok bytes => some (readMessageOn network bytes).1

variable {network : Network}

omit [Features] in
theorem carried_eq {message : Message} {bytes : Bytes}
    (h : writeMessage network message = .ok bytes) :
    carried network message = some (readMessageOn network bytes).1 := by
  rw [carried, h]

omit [Features] in
/-- A message that comes back is carried as it is. -/
theorem carried_faithful {message : Message} (hbuilt : message.Built)
    (hfaithful : message.payload.Faithful)
    (hwritten : ∃ bytes, writeMessage network message = .ok bytes) :
    carried network message = some (.ok message) := by
  obtain ⟨bytes, hbytes⟩ := hwritten
  have hread := (readMessage_written_iff hbuilt hbytes []).mpr hfaithful
  rw [List.append_nil, readMessage_eq_readMessageOn] at hread
  obtain ⟨found, hfound, hpair⟩ := map_ok hread
  rw [carried_eq hbytes, hfound, (Prod.mk.inj hpair).1]

omit [Features] in
theorem carried_verack : carried network Message.verack = some (.ok Message.verack) := by
  have hname : Command.encode "verack" =
      .ok ⟨[0x76, 0x65, 0x72, 0x61, 0x63, 0x6b, 0, 0, 0, 0, 0, 0], rfl⟩ := by decide +kernel
  exact carried_faithful .verack trivial (exists_writeMessage rfl (Nat.zero_le _) hname)

omit [Features] in
theorem carried_version (nonce : UInt64) (timestamp : Int64) (startHeight : Int32) :
    carried network (Message.version (defaultVersionMessage nonce timestamp startHeight)) =
      some (.ok (Message.version (defaultVersionMessage nonce timestamp startHeight))) := by
  have hname : Command.encode "version" =
      .ok ⟨[0x76, 0x65, 0x72, 0x73, 0x69, 0x6f, 0x6e, 0, 0, 0, 0, 0], rfl⟩ := by decide +kernel
  have hagent : ¬ maxUserAgentLen < (utf8 "/bitrst:0.1.0/").length := by decide +kernel
  have hrelay : (60002 : Int32) ≤ protocolVersion := by decide
  obtain ⟨payload, hpayload, hfits⟩ : ∃ payload,
      encodePayload (Message.version (defaultVersionMessage nonce timestamp startHeight)) =
        .ok ("version", payload) ∧ payload.length ≤ maxPayloadSize := by
    simp only [encodePayload, Message.version, encodeVersion, defaultVersionMessage,
      if_neg hagent, if_pos hrelay]
    refine ⟨_, rfl, ?_⟩
    have hlength : (writeCompactSize (UInt64.ofNat (utf8 "/bitrst:0.1.0/").length)).length +
        (utf8 "/bitrst:0.1.0/").length ≤ 100 := by decide +kernel
    have hlimit : 200 ≤ maxPayloadSize := by decide
    simp only [List.length_append, List.length_replicate, i32ToLeBytes, i64ToLeBytes,
      u64ToLeBytes, u32ToLeBytes, List.length_cons, List.length_nil, legacyAddressSize]
    omega
  exact carried_faithful (.version _) (.inl hrelay) (exists_writeMessage hpayload hfits hname)

omit [Features] in
/-- Behind the handshake nothing arrives that would belong to it. -/
theorem carried_late {message received : Message} (h : message.Application)
    (hcarried : carried network message = some (.ok received)) :
    received.payload.isHandshake = false := by
  unfold carried at hcarried
  split at hcarried
  · cases hcarried
  · rename_i bytes hbytes
    obtain ⟨payload, -, -, hread, -⟩ := readMessage_written hbytes
    have hsame := hread []
    rw [List.append_nil, readMessage_eq_readMessageOn, Option.some.inj hcarried] at hsame
    obtain ⟨found, hfound, hpair⟩ := map_ok hsame.symm
    obtain rfl := (Prod.mk.inj hpair).1
    by_contra hhandshake
    have hcommand := decodePayload_isHandshake hfound (Bool.not_eq_false _ ▸ hhandshake)
    have hlate := h.late
    rcases h.built with _ | _ | _ | _ | _ | _
    · cases hlate
    · cases hlate
    all_goals simp [Message.inv, Message.getdata, Message.block, Message.tx] at hcommand

end

/-! ## The two tasks -/

structure PeerLink (α : Type) where
  /-- The task that accepted the connection and the one that opened it. -/
  side : ConnectionDirection → PeerSession α
  /-- What a side has written and the other has not read. -/
  wire : ConnectionDirection → List (Except NetError Message)

inductive LinkAction
  | send (d : ConnectionDirection)
  | transmit (d : ConnectionDirection)
  | deliver (d : ConnectionDirection) (now : ℕ) (node : Node)
  | relay (d : ConnectionDirection) (items : List InventoryVector)
  | shutDown (d : ConnectionDirection)
  | timeOut (d : ConnectionDirection)
  | breakRead (d : ConnectionDirection) (error : NetError) (now : ℕ) (node : Node)
  | breakWrite (d : ConnectionDirection)

namespace PeerLink

variable [Crypto] [Features] {α : Type}

def start (addr : ConnectionDirection → α) (config : ConnectionDirection → HandshakeConfig)
    (timestamp : ConnectionDirection → Int64) (startHeight : ConnectionDirection → Int32)
    (relay : ConnectionDirection → PeerRelayState) : PeerLink α where
  side d := .start (addr d) d (config d) (timestamp d) (startHeight d) (relay d)
  wire _ := []

def setSide (l : PeerLink α) (d : ConnectionDirection) (s : PeerSession α) : PeerLink α :=
  { l with side := Function.update l.side d s }

def setWire (l : PeerLink α) (d : ConnectionDirection)
    (items : List (Except NetError Message)) : PeerLink α :=
  { l with wire := Function.update l.wire d items }

/-- The writer of a side takes a message from its queue. -/
def transmit (network : Network) (d : ConnectionDirection) (l : PeerLink α) :
    Option (PeerLink α) :=
  match (l.side d).queue with
  | [] => none
  | message :: _ =>
      match carried network message with
      | none => (l.side d).stopWriter.map (l.setSide d)
      | some item =>
          (l.side d).write.map fun s ↦ (l.setSide d s).setWire d (l.wire d ++ [item])

/-- A side reads what comes next from the other. -/
def deliver (d : ConnectionDirection) (now : ℕ) (node : Node) (l : PeerLink α) :
    Option (PeerLink α) :=
  match l.wire d.opposite with
  | [] => none
  | item :: rest =>
      ((l.side d).read item now node).map fun s ↦ (l.setSide d s).setWire d.opposite rest

/-- The manager sends its peers nothing but inventories. -/
def step (network : Network) (l : PeerLink α) : LinkAction → Option (PeerLink α)
  | .send d => (l.side d).send.map (l.setSide d)
  | .transmit d => l.transmit network d
  | .deliver d now node => l.deliver d now node
  | .relay d items => ((l.side d).command (some (.send (Message.inv items)))).map (l.setSide d)
  | .shutDown d => ((l.side d).command none).map (l.setSide d)
  | .timeOut d => (l.side d).timeOut.map (l.setSide d)
  | .breakRead d error now node => ((l.side d).read (.error error) now node).map (l.setSide d)
  | .breakWrite d => (l.side d).stopWriter.map (l.setSide d)

end PeerLink

end Bitrst
