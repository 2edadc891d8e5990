import Bitrst.Handshake
import Bitrst.Relay
import Bitrst.Support.Transition

/-!
# A peer's connection

`run_peer` on one connection, with the queue of its writer task.  An action is
what the task does between two points at which it waits.  What `read_message`
returns is a choice of the action, and so is the state of the node that a
message is handled in, which the other tasks share.  The queue of events is
taken to have room, and to be open: `emit_event` does not fail here.  Its bounds
are those of the peer manager's model.
-/

namespace Bitrst

open Support

def maxOutboundQueue : ℕ := 128

/-- Why `run_peer` returns an error. -/
inductive SessionError
  | net (e : NetError)
  | handshake (e : HandshakeError)
  | handshakeTimeout (timeout : ℕ)
  | outboundQueueFull
  | chain (e : ChainHandleError)
  | io (operation : String)
  | taskJoinFailed
  deriving DecidableEq

structure PeerSession (α : Type) where
  addr : α
  handshake : HandshakeState
  localVersion : VersionMessage
  relay : PeerRelayState
  /-- The messages of the loop under way that the writer has yet to take. -/
  sending : List Message
  /-- The queue of the writer. -/
  queue : List Message
  /-- The writer task still runs. -/
  writing : Bool
  emitted : List (PeerEvent α)
  /-- What `run_peer` has returned. -/
  result : Option (Except SessionError Unit)

inductive SessionAction
  | send
  | read (item : Except NetError Message) (now : ℕ) (node : Node)
  | timeOut
  | command (command : Option PeerCommand)
  | write
  | stopWriter

def relayErrorToNet : RelayError → SessionError
  | .chain e => .chain e
  | .mempool _ => .io "mempool relay"

section

variable [Crypto] [Features] {α : Type}

namespace PeerSession

/-- The task with the cursor that the chain gave it, about to send its first messages. -/
def start (addr : α) (direction : ConnectionDirection) (config : HandshakeConfig)
    (timestamp : Int64) (startHeight : Int32) (relay : PeerRelayState) : PeerSession α :=
  let handshake := HandshakeState.new direction config
  let localVersion := defaultVersionMessage config.localNonce timestamp startHeight
  { addr := addr
    handshake := handshake
    localVersion := localVersion
    relay := relay
    sending :=
      if direction = .outbound then handshake.initialOutboundMessages localVersion else []
    queue := []
    writing := true
    emitted := []
    result := none }

def Established (s : PeerSession α) : Prop := s.handshake.phase = .established

instance (s : PeerSession α) : Decidable s.Established := inferInstanceAs (Decidable (_ = _))

/-- The task waits for a message, and once established for a command as well. -/
def Waits (s : PeerSession α) : Prop := s.result = none ∧ s.sending = []

instance (s : PeerSession α) : Decidable s.Waits := inferInstanceAs (Decidable (_ ∧ _))

def fail (error : SessionError) (s : PeerSession α) : PeerSession α :=
  { s with result := some (.error error) }

/-- `writer.send(message).await?` -/
def send (s : PeerSession α) : Option (PeerSession α) :=
  match s.sending with
  | [] => none
  | message :: rest =>
      if s.result ≠ none then none
      else if ¬ s.writing then some (s.fail .outboundQueueFull)
      else if s.queue.length < maxOutboundQueue then
        some { s with sending := rest, queue := s.queue ++ [message] }
      else none

/-- A turn of the handshake loop.  The message that establishes the handshake has no replies, so
that the loop ends with it. -/
def readHandshake (item : Except NetError Message) (s : PeerSession α) : PeerSession α :=
  match item with
  | .error e => s.fail (.net e)
  | .ok message =>
      match s.handshake.onMessage message (s.handshake.offered s.localVersion) with
      | (.error e, handshake) => { s with handshake := handshake }.fail (.handshake e)
      | (.ok replies, handshake) =>
          { s with
            handshake := handshake
            sending := replies
            emitted :=
              if handshake.phase = .established then s.emitted ++ [.ready s.addr]
              else s.emitted }

/-- A turn of the main loop with a message; a handler that never returns has no next state. -/
def readRelay (item : Except NetError Message) (now : ℕ) (node : Node) (s : PeerSession α) :
    Option (PeerSession α) :=
  match item with
  | .error e => some (s.fail (.net e))
  | .ok message =>
      if message.payload.isHandshake then
        some (s.fail (.handshake (.handshakeViolation "version/verack after handshake")))
      else
        match handlePeerMessage s.relay message now node with
        | (.error (.chain (.chain .hang)), _, _) => none
        | (.error (.chain (.chain .panic)), _, _) => some (s.fail .taskJoinFailed)
        | (.error e, relay, _) => some ({ s with relay := relay }.fail (relayErrorToNet e))
        | (.ok .none, relay, _) => some { s with relay := relay }
        | (.ok (.reply messages), relay, _) =>
            some { s with relay := relay, sending := messages }
        | (.ok (.announce items), relay, _) =>
            some { s with relay := relay, emitted := s.emitted ++ [.announce s.addr items] }

def read (item : Except NetError Message) (now : ℕ) (node : Node) (s : PeerSession α) :
    Option (PeerSession α) :=
  if ¬ s.Waits then none
  else if s.Established then s.readRelay item now node
  else some (s.readHandshake item)

/-- The deadline of the handshake passes while a message is awaited. -/
def timeOut (s : PeerSession α) : Option (PeerSession α) :=
  if s.Waits ∧ ¬ s.Established then
    some (s.fail (.handshakeTimeout s.handshake.config.timeout))
  else none

/-- `commands.recv()`, which returns nothing once every sender is dropped. -/
def command (command : Option PeerCommand) (s : PeerSession α) : Option (PeerSession α) :=
  if s.Waits ∧ s.Established then
    match command with
    | some (.send message) => some { s with sending := [message] }
    | some .shutdown | none => some { s with result := some (.ok ()) }
  else none

/-- The writer task takes a message, also when the task itself has returned. -/
def write (s : PeerSession α) : Option (PeerSession α) :=
  if s.writing then
    match s.queue with
    | [] => none
    | _ :: rest => some { s with queue := rest }
  else none

/-- A message that cannot be written ends the writer task.  What it leaves in its queue is lost
and no longer looked at. -/
def stopWriter (s : PeerSession α) : Option (PeerSession α) :=
  if s.writing then some { s with writing := false } else none

def step (s : PeerSession α) : SessionAction → Option (PeerSession α)
  | .send => s.send
  | .read item now node => s.read item now node
  | .timeOut => s.timeOut
  | .command command => s.command command
  | .write => s.write
  | .stopWriter => s.stopWriter

/-- What the task has returned stays. -/
theorem step_final {s next : PeerSession α} {action : SessionAction}
    (h : s.step action = some next) (hresult : s.result ≠ none) : next.result = s.result := by
  have hwaits : ¬ s.Waits := fun hwaits ↦ hresult hwaits.1
  cases action with
  | send =>
      simp only [PeerSession.step, PeerSession.send, if_pos hresult] at h
      split at h <;> cases h
  | read item now node =>
      rw [PeerSession.step, PeerSession.read, if_pos hwaits] at h
      cases h
  | timeOut =>
      rw [PeerSession.step, PeerSession.timeOut, if_neg fun hboth ↦ hwaits hboth.1] at h
      cases h
  | command command =>
      simp only [PeerSession.step, PeerSession.command] at h
      rw [if_neg fun hboth ↦ hwaits hboth.1] at h
      cases h
  | write =>
      simp only [PeerSession.step, PeerSession.write] at h
      split at h
      · split at h
        · cases h
        · rw [← Option.some.inj h]
      · cases h
  | stopWriter =>
      simp only [PeerSession.step, PeerSession.stopWriter] at h
      split at h
      · rw [← Option.some.inj h]
      · cases h

/-- Only what stops the writer stops it. -/
theorem step_writing {s next : PeerSession α} {action : SessionAction}
    (h : s.step action = some next) (haction : action ≠ .stopWriter) :
    next.writing = s.writing := by
  have hhandshake : ∀ item, (s.readHandshake item).writing = s.writing := by
    intro item
    unfold readHandshake
    split
    · rfl
    · split <;> rfl
  have hrelay : ∀ item now node, s.readRelay item now node = some next →
      next.writing = s.writing := by
    intro item now node hread
    unfold readRelay at hread
    split at hread
    · rw [← Option.some.inj hread]
      rfl
    · split at hread
      · rw [← Option.some.inj hread]
        rfl
      · split at hread
        · cases hread
        all_goals
          rw [← Option.some.inj hread]
          first | rfl | done
  cases action with
  | stopWriter => exact absurd rfl haction
  | send =>
      simp only [PeerSession.step, PeerSession.send] at h
      split at h
      · cases h
      · split at h
        · cases h
        · split at h
          · rw [← Option.some.inj h]
            rfl
          · split at h
            · rw [← Option.some.inj h]
            · cases h
  | read item now node =>
      simp only [PeerSession.step, PeerSession.read] at h
      split at h
      · cases h
      · split at h
        · exact hrelay item now node h
        · rw [← Option.some.inj h]
          exact hhandshake item
  | timeOut =>
      simp only [PeerSession.step, PeerSession.timeOut] at h
      split at h
      · rw [← Option.some.inj h]
        rfl
      · cases h
  | command command =>
      simp only [PeerSession.step, PeerSession.command] at h
      split at h
      · split at h <;> rw [← Option.some.inj h]
      · cases h
  | write =>
      simp only [PeerSession.step, PeerSession.write] at h
      split at h
      · split at h
        · cases h
        · rw [← Option.some.inj h]
      · cases h

/-- A writer that has stopped is not started again. -/
theorem step_stopped {s next : PeerSession α} {action : SessionAction}
    (h : s.step action = some next) (hstopped : s.writing = false) : next.writing = false := by
  by_cases haction : action = .stopWriter
  · subst haction
    simp only [PeerSession.step, PeerSession.stopWriter, hstopped, Bool.false_eq_true, if_false]
      at h
    cases h
  · exact (step_writing h haction).trans hstopped

end PeerSession

end

end Bitrst
