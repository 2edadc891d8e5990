import Bitrst.PeerManager

/-!
# The version and verack handshake

`handshake.rs`: what a connection sends when it opens, and what it makes of the
messages that arrive until the handshake is established.  A method on
`&mut self` returns its result together with the state it leaves behind.  The
nonce is drawn at random outside the model, and durations are nanoseconds.
-/

namespace Bitrst

def protocolVersion : Int32 := 70016

def defaultVersionMessage (nonce : UInt64) (timestamp : Int64) (startHeight : Int32) :
    VersionMessage :=
  ⟨protocolVersion, 0, timestamp, nonce, "/bitrst:0.1.0/", startHeight, false⟩

/-- The messages of the handshake, which have no place after it. -/
def MessagePayload.isHandshake : MessagePayload → Bool
  | .version _ | .verack => true
  | .inv _ | .getData _ | .block _ | .tx _ => false

structure HandshakeConfig where
  localNonce : UInt64
  timeout : ℕ
  deriving DecidableEq

inductive HandshakePhase
  | awaitingVersion
  | awaitingPeerVersion
  | awaitingVerack
  | established
  deriving DecidableEq

structure HandshakeState where
  direction : ConnectionDirection
  config : HandshakeConfig
  phase : HandshakePhase
  peerVersion : Option VersionMessage
  deriving DecidableEq

/-- The errors of `NetError` that `on_message` returns. -/
inductive HandshakeError
  | handshakeViolation (reason : String)
  | selfConnection
  deriving DecidableEq

namespace HandshakeState

def new (direction : ConnectionDirection) (config : HandshakeConfig) : HandshakeState :=
  ⟨direction, config,
    match direction with
    | .outbound => .awaitingPeerVersion
    | .inbound => .awaitingVersion, none⟩

def initialOutboundMessages (version : VersionMessage) (state : HandshakeState) : List Message :=
  if state.direction = .outbound ∧ state.phase = .awaitingPeerVersion then
    [Message.version version]
  else []

def validatePeerVersion (version : VersionMessage) (state : HandshakeState) :
    Except HandshakeError Unit :=
  if version.nonce = state.config.localNonce then .error .selfConnection else .ok ()

/-- The version of the peer is taken over before a missing version of our own is an error. -/
def onMessage (message : Message) (localVersion : Option VersionMessage)
    (state : HandshakeState) : Except HandshakeError (List Message) × HandshakeState :=
  match state.phase, message.payload with
  | .awaitingVersion, .version version =>
      match state.validatePeerVersion version with
      | .error e => (.error e, state)
      | .ok () =>
          let state := { state with peerVersion := some version, phase := .awaitingVerack }
          match localVersion with
          | none =>
              (.error (.handshakeViolation "missing local version for inbound handshake"), state)
          | some ours => (.ok [Message.version ours, Message.verack], state)
  | .awaitingPeerVersion, .version version =>
      match state.validatePeerVersion version with
      | .error e => (.error e, state)
      | .ok () =>
          (.ok [Message.verack],
            { state with peerVersion := some version, phase := .awaitingVerack })
  | .awaitingVerack, .verack => (.ok [], { state with phase := .established })
  | .established, _ => (.ok [], state)
  | _, _ => (.error (.handshakeViolation "unexpected handshake message"), state)

/-- A peer's version is awaited. -/
def AwaitsVersion (state : HandshakeState) : Prop :=
  state.phase = .awaitingVersion ∨ state.phase = .awaitingPeerVersion

/-- What the first version is answered with. -/
def answer (localVersion : VersionMessage) (state : HandshakeState) : List Message :=
  match state.direction with
  | .inbound => [Message.version localVersion, Message.verack]
  | .outbound => [Message.verack]

/-- The version `run_peer` hands to `on_message`. -/
def offered (localVersion : VersionMessage) (state : HandshakeState) : Option VersionMessage :=
  if state.direction = .inbound then some localVersion else none

/-- Only the side that was connected to begins without a version of its own on the way. -/
def WellDirected (state : HandshakeState) : Prop :=
  (state.phase = .awaitingVersion → state.direction = .inbound) ∧
    (state.phase = .awaitingPeerVersion → state.direction = .outbound)

theorem new_wellDirected (direction : ConnectionDirection) (config : HandshakeConfig) :
    (new direction config).WellDirected := by
  cases direction with
  | inbound => exact ⟨fun _ ↦ rfl, fun h ↦ nomatch h⟩
  | outbound => exact ⟨(fun h ↦ nomatch h), fun _ ↦ rfl⟩

theorem new_awaitsVersion (direction : ConnectionDirection) (config : HandshakeConfig) :
    (new direction config).AwaitsVersion := by
  cases direction with
  | inbound => exact .inl rfl
  | outbound => exact .inr rfl

section

variable {state : HandshakeState} {message : Message} (localVersion : VersionMessage)

/-- The version of another node is answered. -/
theorem onMessage_version {version : VersionMessage} (hdirected : state.WellDirected)
    (hawaits : state.AwaitsVersion) (hpayload : message.payload = .version version)
    (hnonce : version.nonce ≠ state.config.localNonce) :
    state.onMessage message (state.offered localVersion) =
      (.ok (state.answer localVersion),
        { state with peerVersion := some version, phase := .awaitingVerack }) := by
  have hvalid : state.validatePeerVersion version = .ok () := if_neg hnonce
  rcases hawaits with hphase | hphase
  · have hdirection := hdirected.1 hphase
    simp only [onMessage, hphase, hpayload, hvalid, offered, answer, hdirection, if_true]
  · have hdirection := hdirected.2 hphase
    simp only [onMessage, hphase, hpayload, hvalid, answer, hdirection]

/-- A node that meets itself notices when both ends drew the same nonce. -/
theorem onMessage_self {version : VersionMessage} (hawaits : state.AwaitsVersion)
    (hpayload : message.payload = .version version)
    (hnonce : version.nonce = state.config.localNonce) (offer : Option VersionMessage) :
    state.onMessage message offer = (.error .selfConnection, state) := by
  have hinvalid : state.validatePeerVersion version = .error .selfConnection := if_pos hnonce
  rcases hawaits with hphase | hphase <;> simp only [onMessage, hphase, hpayload, hinvalid]

/-- Before the version of the peer, nothing else is accepted. -/
theorem onMessage_early (hawaits : state.AwaitsVersion)
    (hpayload : ∀ version, message.payload ≠ .version version) (offer : Option VersionMessage) :
    state.onMessage message offer =
      (.error (.handshakeViolation "unexpected handshake message"), state) := by
  rcases hawaits with hphase | hphase <;>
  · cases hmessage : message.payload with
    | version version => exact absurd hmessage (hpayload version)
    | _ => simp only [onMessage, hphase, hmessage]

theorem onMessage_verack (hphase : state.phase = .awaitingVerack)
    (hpayload : message.payload = .verack) (offer : Option VersionMessage) :
    state.onMessage message offer = (.ok [], { state with phase := .established }) := by
  simp only [onMessage, hphase, hpayload]

theorem onMessage_late (hphase : state.phase = .awaitingVerack)
    (hpayload : message.payload ≠ .verack) (offer : Option VersionMessage) :
    state.onMessage message offer =
      (.error (.handshakeViolation "unexpected handshake message"), state) := by
  cases hmessage : message.payload with
  | verack => exact absurd hmessage hpayload
  | _ => simp only [onMessage, hphase, hmessage]

end

end HandshakeState

end Bitrst
