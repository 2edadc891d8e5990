import Bitrst.Messages
import Bitrst.Support.BoundedChannel
import Bitrst.Support.HashMap
import Mathlib.Data.Multiset.Basic

/-!
# The peer manager and its tasks

The acceptor, the peer tasks and the manager of `bitrst-net` as one transition
system over the event queue, the registration queue and the command queues.
One action is what a party does between two points at which others may run;
what arrives on a socket is a choice of the action.  A command channel and the
task behind it are named by the position of the task among all that were
spawned.  A node that shuts down is left out.
-/

namespace Bitrst

open Support

def maxPeerEvents : ℕ := 256

def maxPeerRegistrations : ℕ := 32

/-- The capacity `spawn_peer` gives to a command channel. -/
def maxPeerCommands : ℕ := 32

structure PeerManagerConfig where
  maxInbound : ℕ
  maxOutbound : ℕ

inductive ConnectionDirection
  | inbound
  | outbound
  deriving DecidableEq

inductive PeerLifecycle
  | handshaking
  | ready
  deriving DecidableEq

structure PeerEntry where
  task : ℕ
  direction : ConnectionDirection
  state : PeerLifecycle
  deriving DecidableEq

structure PeerRegistration (α : Type) where
  addr : α
  direction : ConnectionDirection
  task : ℕ
  deriving DecidableEq

inductive PeerEvent (α : Type)
  | ready (addr : α)
  | announce (addr : α) (items : List InventoryVector)
  | disconnected (addr : α) (error : NetError)
  | registrationRejected (addr : α) (error : NetError)
  deriving DecidableEq

inductive PeerCommand
  | send (message : Message)
  | shutdown
  deriving DecidableEq

/-- How far `run_peer` has come: before the handshake is established, in its
loop, or returned, when the receiver of its commands is dropped. -/
inductive PeerPhase
  | handshaking
  | established
  | ended
  deriving DecidableEq

structure PeerTask (α : Type) where
  addr : α
  direction : ConnectionDirection
  phase : PeerPhase
  commands : List PeerCommand
  deriving DecidableEq

/-- A call of `relay_inventory` with the addresses it has yet to visit. -/
structure InventoryRelay (α : Type) where
  /-- Whether `poll` goes on when the call returns. -/
  polling : Bool
  origin : Option α
  message : Message
  left : List α
  deriving DecidableEq

inductive ManagerPhase (α : Type)
  | idle
  | registrations
  | events
  | relaying (relay : InventoryRelay α)
  | sending (relay : InventoryRelay α) (task : ℕ)
  deriving DecidableEq

/-- Every event stands with the task that emits it, which the manager does not see. -/
structure PeerSystem (α : Type) where
  tasks : List (PeerTask α)
  /-- The registration that the acceptor is about to send. -/
  accepting : Option (PeerRegistration α)
  registrations : List (PeerRegistration α)
  events : BoundedChannel maxPeerEvents (ℕ × PeerEvent α)
  peers : HashMap α PeerEntry
  outboundCount : ℕ
  manager : ManagerPhase α

inductive PeerAction (α : Type)
  | accept (addr : α)
  | register
  | connectSeed (addr : α)
  | complete (task : ℕ)
  | announce (task : ℕ) (items : List InventoryVector)
  | fail (task : ℕ) (error : NetError)
  | deliver (index : ℕ)
  | takeCommand (task : ℕ)
  | poll
  | takeRegistration
  | takeEvent (order : List α)
  | relayInventory (origin : Option α) (items : List InventoryVector) (order : List α)
  | turn
  | send

namespace PeerSystem

variable {α : Type} [DecidableEq α]

def start : PeerSystem α := ⟨[], none, [], .empty, ∅, 0, .idle⟩

/-! ## The acceptor -/

/-- Registrations on their way to the manager. -/
def pending (s : PeerSystem α) : List (PeerRegistration α) :=
  s.registrations ++ s.accepting.toList

/-- `inbound_capacity.reserved()`: the slot of a task is released when `run_peer` returns. -/
def inboundReserved (s : PeerSystem α) : ℕ :=
  s.tasks.countP fun task ↦ task.direction = .inbound ∧ task.phase ≠ .ended

def spawnPeer (addr : α) (direction : ConnectionDirection) (s : PeerSystem α) : PeerSystem α :=
  { s with tasks := s.tasks ++ [⟨addr, direction, .handshaking, []⟩] }

def accept (config : PeerManagerConfig) (addr : α) (s : PeerSystem α) : Option (PeerSystem α) :=
  if s.accepting.isSome then none
  else if s.inboundReserved < config.maxInbound then
    some { s.spawnPeer addr .inbound with accepting := some ⟨addr, .inbound, s.tasks.length⟩ }
  else some s

def register (s : PeerSystem α) : Option (PeerSystem α) :=
  match s.accepting with
  | none => none
  | some registration =>
      if s.registrations.length < maxPeerRegistrations then
        some { s with accepting := none, registrations := s.registrations ++ [registration] }
      else none

/-! ## The peer tasks -/

/-- The task waits in `emit_event`. -/
def Emitting (s : PeerSystem α) (task : ℕ) : Prop :=
  ∃ event ∈ s.events.granted ++ s.events.waiters, event.1 = task

instance (s : PeerSystem α) (task : ℕ) : Decidable (s.Emitting task) :=
  inferInstanceAs (Decidable (∃ event ∈ _, _))

/-- Someone holds a sender of the task's command channel. -/
def HasSender (s : PeerSystem α) (task : ℕ) : Prop :=
  (∃ entry ∈ s.peers.entries, entry.2.task = task) ∨
    ∃ registration ∈ s.pending, registration.task = task

instance (s : PeerSystem α) (task : ℕ) : Decidable (s.HasSender task) :=
  have : Decidable (∃ entry ∈ s.peers.entries, entry.2.task = task) :=
    Multiset.decidableExistsMultiset
  inferInstanceAs (Decidable (_ ∨ _))

def setPhase (s : PeerSystem α) (task : ℕ) (phase : PeerPhase) : PeerSystem α :=
  { s with tasks := s.tasks.modify task fun t ↦ { t with phase := phase } }

def setCommands (s : PeerSystem α) (task : ℕ) (commands : List PeerCommand) : PeerSystem α :=
  { s with tasks := s.tasks.modify task fun t ↦ { t with commands := commands } }

def emitEvent (s : PeerSystem α) (task : ℕ) (event : PeerEvent α) : PeerSystem α :=
  { s with events := s.events.request (task, event) }

/-- The task in a phase of `run_peer` in which it can go on. -/
def running (s : PeerSystem α) (task : ℕ) (phase : PeerPhase) : Option (PeerTask α) :=
  if s.Emitting task then none else s.tasks[task]?.filter fun t ↦ t.phase = phase

def complete (task : ℕ) (s : PeerSystem α) : Option (PeerSystem α) :=
  (s.running task .handshaking).map fun t ↦
    (s.setPhase task .established).emitEvent task (.ready t.addr)

def announce (task : ℕ) (items : List InventoryVector) (s : PeerSystem α) :
    Option (PeerSystem α) :=
  (s.running task .established).map fun t ↦ s.emitEvent task (.announce t.addr items)

/-- `run_peer` returns an error, and the task emits the event about it. -/
def fail (task : ℕ) (error : NetError) (s : PeerSystem α) : Option (PeerSystem α) :=
  ((s.running task .handshaking).or (s.running task .established)).map fun t ↦
    (s.setPhase task .ended).emitEvent task (.disconnected t.addr error)

def deliver (index : ℕ) (s : PeerSystem α) : Option (PeerSystem α) :=
  (s.events.deliver index).map fun events ↦ { s with events := events }

/-- `commands.recv()`, which returns nothing once every sender is dropped. -/
def takeCommand (task : ℕ) (s : PeerSystem α) : Option (PeerSystem α) :=
  match s.running task .established with
  | none => none
  | some t =>
      match t.commands with
      | .send _ :: rest => some (s.setCommands task rest)
      | .shutdown :: _ => some (s.setPhase task .ended)
      | [] => if s.HasSender task then none else some (s.setPhase task .ended)

/-! ## The manager -/

def connectSeed (config : PeerManagerConfig) (addr : α) (s : PeerSystem α) :
    Option (PeerSystem α) :=
  match s.manager with
  | .idle =>
      if config.maxOutbound ≤ s.outboundCount then some s
      else if addr ∈ s.peers then some s
      else
        some { s.spawnPeer addr .outbound with
          peers := s.peers.insert addr ⟨s.tasks.length, .outbound, .handshaking⟩
          outboundCount := s.outboundCount + 1 }
  | _ => none

/-- Dropping a task also drops the event that it waits to send. -/
def abort (s : PeerSystem α) (task : ℕ) : PeerSystem α :=
  { s.setPhase task .ended with events := s.events.cancel fun event ↦ event.1 = task }

def processRegistration (config : PeerManagerConfig) (registration : PeerRegistration α)
    (s : PeerSystem α) : PeerSystem α :=
  if registration.direction = .outbound ∧ config.maxOutbound ≤ s.outboundCount then
    let aborted := s.abort registration.task
    { aborted with
      events := aborted.events.trySend
        (registration.task, .registrationRejected registration.addr .connectionLimitReached) }
  else
    { s with
      outboundCount :=
        if registration.direction = .outbound then s.outboundCount + 1 else s.outboundCount
      peers := s.peers.insert registration.addr
        ⟨registration.task, registration.direction, .handshaking⟩ }

def takeRegistration (config : PeerManagerConfig) (s : PeerSystem α) : Option (PeerSystem α) :=
  match s.manager with
  | .registrations =>
      match s.registrations with
      | [] => some { s with manager := .events }
      | registration :: rest =>
          some (processRegistration config registration { s with registrations := rest })
  | _ => none

/-- Where a call of `relay_inventory` returns to. -/
def resume (s : PeerSystem α) (polling : Bool) : PeerSystem α :=
  { s with manager := if polling then .events else .idle }

/-- The peers are visited in the order in which the map happens to list them. -/
def startRelay (polling : Bool) (origin : Option α) (items : List InventoryVector)
    (order : List α) (s : PeerSystem α) : Option (PeerSystem α) :=
  if items = [] then some (s.resume polling)
  else if (order : Multiset α) = s.peers.keys.val then
    some { s with manager := .relaying ⟨polling, origin, Message.inv items, order⟩ }
  else none

def handleEvent (event : PeerEvent α) (order : List α) (s : PeerSystem α) :
    Option (PeerSystem α) :=
  match event with
  | .announce addr items =>
      s.startRelay true (some addr)
        (items.filter fun item ↦ item.invType = .block ∨ item.invType = .transaction) order
  | .ready addr =>
      match s.peers.lookup addr with
      | none => some s
      | some entry => some { s with peers := s.peers.insert addr { entry with state := .ready } }
  | .disconnected addr _ =>
      match s.peers.lookup addr with
      | none => some s
      | some entry =>
          some { s with
            peers := s.peers.erase addr
            outboundCount :=
              if entry.direction = .outbound then s.outboundCount - 1 else s.outboundCount }
  | .registrationRejected _ _ => some s

def takeEvent (order : List α) (s : PeerSystem α) : Option (PeerSystem α) :=
  match s.manager with
  | .events =>
      match s.events.receive with
      | none => some { s with manager := .idle }
      | some ((_, event), events) => handleEvent event order { s with events := events }
  | _ => none

def relayInventory (origin : Option α) (items : List InventoryVector) (order : List α)
    (s : PeerSystem α) : Option (PeerSystem α) :=
  match s.manager with
  | .idle => s.startRelay false origin items order
  | _ => none

/-- The next peer of a relay is passed over or becomes the one sent to. -/
def turn (s : PeerSystem α) : Option (PeerSystem α) :=
  match s.manager with
  | .relaying relay =>
      match relay.left with
      | [] => some (s.resume relay.polling)
      | addr :: rest =>
          match s.peers.lookup addr with
          | none => none
          | some entry =>
              if relay.origin = some addr ∨ entry.state ≠ .ready then
                some { s with manager := .relaying { relay with left := rest } }
              else some { s with manager := .sending { relay with left := rest } entry.task }
  | _ => none

/-- `command_tx.send(..)`, which waits while the queue is full and fails when its
receiver is dropped; the error leaves `relay_inventory` and `poll`. -/
def send (s : PeerSystem α) : Option (PeerSystem α) :=
  match s.manager with
  | .sending relay task =>
      match s.tasks[task]? with
      | none => none
      | some t =>
          if t.phase = .ended then some { s with manager := .idle }
          else if t.commands.length < maxPeerCommands then
            some { s.setCommands task (t.commands ++ [.send relay.message]) with
              manager := .relaying relay }
          else none
  | _ => none

def poll (s : PeerSystem α) : Option (PeerSystem α) :=
  match s.manager with
  | .idle => some { s with manager := .registrations }
  | _ => none

def step (config : PeerManagerConfig) (s : PeerSystem α) : PeerAction α → Option (PeerSystem α)
  | .accept addr => s.accept config addr
  | .register => s.register
  | .connectSeed addr => s.connectSeed config addr
  | .complete task => s.complete task
  | .announce task items => s.announce task items
  | .fail task error => s.fail task error
  | .deliver index => s.deliver index
  | .takeCommand task => s.takeCommand task
  | .poll => s.poll
  | .takeRegistration => s.takeRegistration config
  | .takeEvent order => s.takeEvent order
  | .relayInventory origin items order => s.relayInventory origin items order
  | .turn => s.turn
  | .send => s.send

end PeerSystem

end Bitrst
