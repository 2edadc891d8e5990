import Bitrst.BlockSync
import Bitrst.PeerManager
import Bitrst.Support.Flooding

/-!
# Relaying across a network

Nodes with established connections run the handlers of `relay.rs`, and the
manager of each passes what one of its tasks announces on to its other peers.
What one node offers reaches all that it is connected with, if the nodes take
it: the messages about it go the way of a rumour.  The queues have no bounds
here; no run of a rumour meets those that the source gives them.
-/

namespace Bitrst

open Support

/-- Nodes, and for each connection in each direction what is on its way.  The sockets and the
queues of the writers are one list, as both keep the order. -/
structure GossipNet (V : Type) where
  links : Finset (V × V)
  node : V → Node
  relay : V → V → PeerRelayState
  events : V → List (V × List InventoryVector)
  commands : V → V → List Message
  wire : V → V → List Message

inductive GossipAction (V : Type)
  /-- The task of the second node for the first handles a message, at a time of its clock. -/
  | deliver (u v : V) (now : ℕ)
  /-- The task of the first node for the second takes a command. -/
  | takeCommand (u v : V)
  /-- The manager handles an event. -/
  | takeEvent (v : V)

namespace GossipNet

variable {V : Type} [DecidableEq V]

def setWire (x : GossipNet V) (u v : V) (messages : List Message) : GossipNet V :=
  { x with wire := Function.update x.wire u (Function.update (x.wire u) v messages) }

def setRelay (x : GossipNet V) (v u : V) (relay : PeerRelayState) (node : Node) : GossipNet V :=
  { x with
    node := Function.update x.node v node
    relay := Function.update x.relay v (Function.update (x.relay v) u relay) }

/-- An error of a handler ends the connection. -/
def close (x : GossipNet V) (u v : V) : GossipNet V :=
  let drop (queues : V → V → List Message) (a b : V) : List Message :=
    if (a = u ∧ b = v) ∨ (a = v ∧ b = u) then [] else queues a b
  { x with
    links := (x.links.erase (u, v)).erase (v, u)
    commands := drop x.commands
    wire := drop x.wire }

def deliver [Crypto] [Features] (x : GossipNet V) (u v : V) (now : ℕ) : Option (GossipNet V) :=
  match x.wire u v with
  | [] => none
  | message :: rest =>
      match handlePeerMessage (x.relay v u) message now (x.node v) with
      | (.ok .none, relay, node) => some ((x.setWire u v rest).setRelay v u relay node)
      | (.ok (.reply messages), relay, node) =>
          let x := x.setWire u v rest
          some ((x.setWire v u (x.wire v u ++ messages)).setRelay v u relay node)
      | (.ok (.announce items), relay, node) =>
          let events := Function.update x.events v (x.events v ++ [(u, items)])
          some (({ x with events := events }.setWire u v rest).setRelay v u relay node)
      | (.error _, relay, node) => some ((x.close u v).setRelay v u relay node)

def takeCommand (x : GossipNet V) (u v : V) : Option (GossipNet V) :=
  match x.commands u v with
  | [] => none
  | message :: rest =>
      some ({ x with
        commands := Function.update x.commands u (Function.update (x.commands u) v rest) }.setWire
          u v (x.wire u v ++ [message]))

/-- `relay_inventory` with room in the queues. -/
def relayInventory (x : GossipNet V) (v origin : V) (items : List InventoryVector) :
    GossipNet V :=
  if items = [] then x
  else
    { x with
      commands := Function.update x.commands v fun w ↦
        if (v, w) ∈ x.links ∧ w ≠ origin then x.commands v w ++ [Message.inv items]
        else x.commands v w }

def takeEvent (x : GossipNet V) (v : V) : Option (GossipNet V) :=
  match x.events v with
  | [] => none
  | (origin, items) :: rest =>
      some (relayInventory { x with events := Function.update x.events v rest } v origin
        (items.filter fun item ↦ item.invType = .block ∨ item.invType = .transaction))

def step [Crypto] [Features] (x : GossipNet V) : GossipAction V → Option (GossipNet V)
  | .deliver u v now => x.deliver u v now
  | .takeCommand u v => x.takeCommand u v
  | .takeEvent v => x.takeEvent v

/-- Every queue takes one more, so nothing waits and no peer is dropped for a full one. -/
structure HasRoom (x : GossipNet V) : Prop where
  events : ∀ v, (x.events v).length < maxPeerEvents
  commands : ∀ u v, (x.commands u v).length < maxPeerCommands
  wire : ∀ u v, (x.wire u v).length < maxOutboundQueue

end GossipNet

/-! ## What is passed on -/

/-- Something that nodes pass on: how the handlers treat it in a node without and in a node with
it.  `Fresh` and `Waiting` say what the task for a peer needs before and after it has asked. -/
structure Rumour [Crypto] [Features] (V : Type) where
  item : InventoryVector
  data : Message
  Unaware : V → Node → Prop
  Aware : V → Node → Prop
  Fresh : V → PeerRelayState → Prop
  Waiting : V → PeerRelayState → Prop
  relayed : item.invType = .block ∨ item.invType = .transaction
  asks : ∀ {v relay node} (now : ℕ), Unaware v node → Fresh v relay → ∃ relay' node',
    handlePeerMessage relay (Message.inv [item]) now node =
      (.ok (.reply [Message.getdata [item]]), relay', node') ∧ Unaware v node' ∧ Waiting v relay'
  ignores : ∀ {v relay node} (now : ℕ), Aware v node → ∃ relay' node',
    handlePeerMessage relay (Message.inv [item]) now node = (.ok .none, relay', node') ∧
      Aware v node'
  sends : ∀ {v relay node} (now : ℕ), Aware v node → ∃ relay' node',
    handlePeerMessage relay (Message.getdata [item]) now node =
      (.ok (.reply [data]), relay', node') ∧ Aware v node'
  takes : ∀ {v relay node} (now : ℕ), Unaware v node → Waiting v relay → ∃ relay' node',
    handlePeerMessage relay data now node = (.ok (.announce [item]), relay', node') ∧
      Aware v node'
  drops : ∀ {v relay node} (now : ℕ), Aware v node → ∃ relay' node',
    handlePeerMessage relay data now node = (.ok .none, relay', node') ∧ Aware v node'

namespace Rumour

variable {V : Type} [Crypto] [Features] (R : Rumour V)

/-- What a node that has the rumour has yet to tell its manager. -/
def events : Hearing V → List (V × List InventoryVector)
  | .spreading origin => [(origin, [R.item])]
  | _ => []

def commands : Offer → List Message
  | .queued => [Message.inv [R.item]]
  | _ => []

/-- What is on its way to the one that is offered something. -/
def offered : Offer → List Message
  | .told => [Message.inv [R.item]]
  | .sent => [R.data]
  | _ => []

/-- What is on its way back. -/
def request : Offer → List Message
  | .asked => [Message.getdata [R.item]]
  | _ => []

/-- What the task for a peer needs while the offer of that peer is at this point. -/
def Prepared (v : V) (relay : PeerRelayState) : Offer → Prop
  | .idle | .queued | .told => R.Fresh v relay
  | .asked | .sent => R.Waiting v relay
  | .settled => True

/-- The network is where the rumour has got to. -/
structure Mirrors (links : Finset (V × V)) (x : GossipNet V) (f : Flood V) : Prop where
  same : x.links = links
  unaware : ∀ v, f.hearing v = .unaware → R.Unaware v (x.node v)
  aware : ∀ v, f.hearing v ≠ .unaware → R.Aware v (x.node v)
  events : ∀ v, x.events v = R.events (f.hearing v)
  commands : ∀ u v, x.commands u v = R.commands (f.offer u v)
  wire : ∀ u v, (x.wire u v).Perm (R.offered (f.offer u v) ++ R.request (f.offer v u))
  prepared : ∀ u v, (u, v) ∈ links → f.hearing v = .unaware →
    R.Prepared v (x.relay v u) (f.offer u v)

end Rumour

/-! ## One message -/

namespace GossipNet

variable {V : Type} [DecidableEq V] {x y : GossipNet V} {u v : V} {rest : List Message}

/-- The task of `v` for `u` has handled a message. -/
structure Delivered (x y : GossipNet V) (u v : V) (rest replies : List Message)
    (announced : List (V × List InventoryVector)) (relay : PeerRelayState) (node : Node) :
    Prop where
  links : y.links = x.links
  commands : y.commands = x.commands
  node_self : y.node v = node
  node_other : ∀ w, w ≠ v → y.node w = x.node w
  relay_self : y.relay v u = relay
  relay_other : ∀ a b, ¬ (a = v ∧ b = u) → y.relay a b = x.relay a b
  events_self : y.events v = x.events v ++ announced
  events_other : ∀ w, w ≠ v → y.events w = x.events w
  wire_self : y.wire u v = rest
  wire_back : y.wire v u = x.wire v u ++ replies
  wire_other : ∀ a b, ¬ (a = u ∧ b = v) → ¬ (a = v ∧ b = u) → y.wire a b = x.wire a b

theorem update_update {W A : Type} [DecidableEq W] (f : W → W → A) (u v a b : W) (value : A) :
    Function.update f u (Function.update (f u) v value) a b =
      if a = u ∧ b = v then value else f a b := by
  by_cases ha : a = u
  · subst ha
    by_cases hb : b = v
    · subst hb
      simp
    · simp [hb]
  · simp [ha]

@[simp] theorem setWire_wire (x : GossipNet V) (u v a b : V) (messages : List Message) :
    (x.setWire u v messages).wire a b = if a = u ∧ b = v then messages else x.wire a b :=
  update_update ..

@[simp] theorem setRelay_relay (x : GossipNet V) (v u a b : V) (relay : PeerRelayState)
    (node : Node) :
    (x.setRelay v u relay node).relay a b = if a = v ∧ b = u then relay else x.relay a b :=
  update_update ..

@[simp] theorem setRelay_node (x : GossipNet V) (v u : V) (relay : PeerRelayState)
    (node : Node) : (x.setRelay v u relay node).node = Function.update x.node v node := rfl

@[simp] theorem setRelay_wire (x : GossipNet V) (v u : V) (relay : PeerRelayState)
    (node : Node) : (x.setRelay v u relay node).wire = x.wire := rfl

@[simp] theorem setRelay_events (x : GossipNet V) (v u : V) (relay : PeerRelayState)
    (node : Node) : (x.setRelay v u relay node).events = x.events := rfl

@[simp] theorem setRelay_commands (x : GossipNet V) (v u : V) (relay : PeerRelayState)
    (node : Node) : (x.setRelay v u relay node).commands = x.commands := rfl

@[simp] theorem setRelay_links (x : GossipNet V) (v u : V) (relay : PeerRelayState)
    (node : Node) : (x.setRelay v u relay node).links = x.links := rfl

@[simp] theorem setWire_same (x : GossipNet V) (u v : V) (messages : List Message) :
    (x.setWire u v messages).node = x.node ∧ (x.setWire u v messages).relay = x.relay ∧
      (x.setWire u v messages).events = x.events ∧
        (x.setWire u v messages).commands = x.commands ∧
          (x.setWire u v messages).links = x.links := ⟨rfl, rfl, rfl, rfl, rfl⟩

theorem deliver_eq [Crypto] [Features] (huv : u ≠ v) {message : Message} {now : ℕ}
    (hwire : x.wire u v = message :: rest) {action : RelayAction} {relay : PeerRelayState}
    {node : Node} (hhandled : handlePeerMessage (x.relay v u) message now (x.node v) =
      (.ok action, relay, node)) :
    ∃ y, x.deliver u v now = some y ∧
      (∀ items, action = .announce items → x.Delivered y u v rest [] [(u, items)] relay node) ∧
      (∀ replies, action = .reply replies → x.Delivered y u v rest replies [] relay node) ∧
      (action = .none → x.Delivered y u v rest [] [] relay node) := by
  cases action with
  | none =>
      refine ⟨_, by simp only [deliver, hwire, hhandled]; rfl, by simp, by simp, fun _ ↦ ?_⟩
      constructor <;> simp +contextual [huv, huv.symm]
  | reply replies =>
      refine ⟨_, by simp only [deliver, hwire, hhandled]; rfl, by simp, ?_, by simp⟩
      rintro _ ⟨rfl⟩
      constructor
      case wire_other =>
        intro a b hto hback
        rw [setRelay_wire, setWire_wire, if_neg hback, setWire_wire, if_neg hto]
      all_goals simp +contextual [huv, huv.symm]
  | announce items =>
      refine ⟨_, by simp only [deliver, hwire, hhandled]; rfl, ?_, by simp, by simp⟩
      rintro _ ⟨rfl⟩
      constructor <;> simp +contextual [huv, huv.symm]

theorem wire_of_idle [Crypto] [Features] {now : ℕ} (h : x.deliver u v now = none) :
    x.wire u v = [] := by
  cases hwire : x.wire u v with
  | nil => rfl
  | cons message rest =>
      rw [deliver, hwire] at h
      dsimp only at h
      split at h <;> cases h

theorem commands_of_idle (h : x.takeCommand u v = none) : x.commands u v = [] := by
  cases hqueue : x.commands u v with
  | nil => rfl
  | cons message rest =>
      rw [takeCommand, hqueue] at h
      cases h

theorem events_of_idle (h : x.takeEvent v = none) : x.events v = [] := by
  cases hqueue : x.events v with
  | nil => rfl
  | cons event rest =>
      rw [takeEvent, hqueue] at h
      cases h

end GossipNet

namespace Rumour

variable {V : Type} [Crypto] [Features] [DecidableEq V] {R : Rumour V} {links : Finset (V × V)}
  {x y : GossipNet V} {f : Flood V} {u v : V} {rest : List Message}

omit [DecidableEq V] in
theorem Mirrors.head (h : R.Mirrors links x f) {message : Message}
    (hwire : x.wire u v = message :: rest) :
    (f.offer u v = .told ∧ message = Message.inv [R.item] ∧
        rest.Perm (R.request (f.offer v u))) ∨
      (f.offer u v = .sent ∧ message = R.data ∧ rest.Perm (R.request (f.offer v u))) ∨
        (f.offer v u = .asked ∧ message = Message.getdata [R.item] ∧
          rest.Perm (R.offered (f.offer u v))) := by
  have hperm := h.wire u v
  rw [hwire] at hperm
  rcases List.mem_append.mp (hperm.mem_iff.mp List.mem_cons_self) with hmem | hmem
  · cases hoffer : f.offer u v with
    | told =>
        rw [hoffer] at hmem hperm
        obtain rfl := List.mem_singleton.mp hmem
        exact .inl ⟨rfl, rfl, hperm.cons_inv⟩
    | sent =>
        rw [hoffer] at hmem hperm
        obtain rfl := List.mem_singleton.mp hmem
        exact .inr (.inl ⟨rfl, rfl, hperm.cons_inv⟩)
    | _ =>
        rw [hoffer] at hmem
        cases hmem
  · cases hrequest : f.offer v u with
    | asked =>
        rw [hrequest] at hmem hperm
        obtain rfl := List.mem_singleton.mp hmem
        exact .inr (.inr ⟨rfl, rfl, (hperm.trans List.perm_append_comm).cons_inv⟩)
    | _ =>
        rw [hrequest] at hmem
        cases hmem

/-- The task has handled what its peer offers. -/
theorem Mirrors.offered (h : R.Mirrors links x f) (huv : u ≠ v) {replies : List Message}
    {announced : List (V × List InventoryVector)} {relay : PeerRelayState} {node : Node}
    (hy : x.Delivered y u v rest replies announced relay node) {offer : Offer}
    {hearing : Hearing V} (hold : R.request (f.offer u v) = [] ∧ R.commands (f.offer u v) = [])
    (hnew : R.offered offer = [] ∧ R.commands offer = [] ∧ R.request offer = replies)
    (hrest : rest.Perm (R.request (f.offer v u)))
    (hunaware : hearing = .unaware → f.hearing v = .unaware ∧ R.Unaware v node ∧
      R.Prepared v relay offer)
    (haware : hearing ≠ .unaware → R.Aware v node)
    (hevents : R.events hearing = R.events (f.hearing v) ++ announced) :
    R.Mirrors links y ((f.setOffer u v offer).setHearing v hearing) where
  same := hy.links.trans h.same
  unaware w hw := by
    by_cases hwv : w = v
    · rw [hwv, Flood.setHearing_hearing_self] at hw
      rw [hwv, hy.node_self]
      exact (hunaware hw).2.1
    · rw [Flood.setHearing_hearing_ne _ _ hwv] at hw
      rw [hy.node_other w hwv]
      exact h.unaware w hw
  aware w hw := by
    by_cases hwv : w = v
    · rw [hwv, Flood.setHearing_hearing_self] at hw
      rw [hwv, hy.node_self]
      exact haware hw
    · rw [Flood.setHearing_hearing_ne _ _ hwv] at hw
      rw [hy.node_other w hwv]
      exact h.aware w hw
  events w := by
    by_cases hwv : w = v
    · rw [hwv, Flood.setHearing_hearing_self, hy.events_self, h.events, hevents]
    · rw [Flood.setHearing_hearing_ne _ _ hwv, hy.events_other w hwv]
      exact h.events w
  commands a b := by
    rw [hy.commands, h.commands, Flood.setHearing_offer, Flood.setOffer_offer]
    split
    · rename_i heq
      rw [heq.1, heq.2, hold.2, hnew.2.1]
    · rfl
  wire a b := by
    rw [Flood.setHearing_offer, Flood.setOffer_offer, Flood.setOffer_offer]
    by_cases hto : a = u ∧ b = v
    · obtain ⟨rfl, rfl⟩ := hto
      rw [if_pos ⟨rfl, rfl⟩, if_neg fun heq ↦ huv heq.2, hy.wire_self, hnew.1, List.nil_append]
      exact hrest
    · rw [if_neg hto]
      by_cases hback : a = v ∧ b = u
      · obtain ⟨rfl, rfl⟩ := hback
        rw [if_pos ⟨rfl, rfl⟩, hy.wire_back, hnew.2.2]
        have hperm := h.wire a b
        rw [hold.1, List.append_nil] at hperm
        exact hperm.append_right replies
      · rw [if_neg fun heq ↦ hback ⟨heq.2, heq.1⟩, hy.wire_other a b hto hback]
        exact h.wire a b
  prepared a b hlink hb := by
    rw [Flood.setHearing_offer, Flood.setOffer_offer]
    by_cases hbv : b = v
    · rw [hbv, Flood.setHearing_hearing_self] at hb
      obtain ⟨hbefore, -, hprepared⟩ := hunaware hb
      rw [hbv]
      by_cases hau : a = u
      · rw [hau, if_pos ⟨rfl, rfl⟩, hy.relay_self]
        exact hprepared
      · rw [if_neg fun heq ↦ hau heq.1, hy.relay_other v a fun heq ↦ hau heq.2]
        exact h.prepared a v (hbv ▸ hlink) hbefore
    · rw [Flood.setHearing_hearing_ne _ _ hbv] at hb
      rw [if_neg fun heq ↦ hbv heq.2, hy.relay_other b a fun heq ↦ hbv heq.1]
      exact h.prepared a b hlink hb

/-- The task has handled a request of its peer. -/
theorem Mirrors.requested (h : R.Mirrors links x f) (huv : u ≠ v) {relay : PeerRelayState}
    {node : Node} (hy : x.Delivered y u v rest [R.data] [] relay node)
    (hasked : f.offer v u = .asked) (hrest : rest.Perm (R.offered (f.offer u v)))
    (hknown : f.hearing v ≠ .unaware) (haware : R.Aware v node) :
    R.Mirrors links y (f.setOffer v u .sent) where
  same := hy.links.trans h.same
  unaware w hw := by
    have hwv : w ≠ v := fun heq ↦ hknown (heq ▸ hw)
    rw [hy.node_other w hwv]
    exact h.unaware w hw
  aware w hw := by
    by_cases hwv : w = v
    · rw [hwv, hy.node_self]
      exact haware
    · rw [hy.node_other w hwv]
      exact h.aware w hw
  events w := by
    by_cases hwv : w = v
    · rw [hwv, hy.events_self, List.append_nil]
      exact h.events v
    · rw [hy.events_other w hwv]
      exact h.events w
  commands a b := by
    rw [hy.commands, h.commands, Flood.setOffer_offer]
    split
    · rename_i heq
      rw [heq.1, heq.2, hasked]
      rfl
    · rfl
  wire a b := by
    rw [Flood.setOffer_offer, Flood.setOffer_offer]
    by_cases hto : a = u ∧ b = v
    · obtain ⟨rfl, rfl⟩ := hto
      rw [if_neg fun heq ↦ huv heq.1, if_pos ⟨rfl, rfl⟩, hy.wire_self]
      simpa [request] using hrest
    · by_cases hback : a = v ∧ b = u
      · obtain ⟨rfl, rfl⟩ := hback
        have hperm := h.wire a b
        rw [hasked] at hperm
        rw [if_pos ⟨rfl, rfl⟩, if_neg fun heq ↦ huv heq.2.symm, hy.wire_back]
        exact (hperm.append_right [R.data]).trans List.perm_append_comm
      · rw [if_neg hback, if_neg fun heq ↦ hto ⟨heq.2, heq.1⟩, hy.wire_other a b hto hback]
        exact h.wire a b
  prepared a b hlink hb := by
    have hbv : b ≠ v := fun heq ↦ hknown (heq ▸ hb)
    rw [Flood.setOffer_offer, hy.relay_other b a fun heq ↦ hbv heq.1]
    split
    · rename_i heq
      rw [heq.1, heq.2]
      have hprepared := h.prepared v u (heq.1 ▸ heq.2 ▸ hlink) (heq.2 ▸ hb)
      rw [hasked] at hprepared
      exact hprepared
    · exact h.prepared a b hlink hb

/-- A task handles a message. -/
theorem Mirrors.deliver (h : R.Mirrors links x f) (hspread : f.Spread links)
    (hloop : ∀ v, (v, v) ∉ links) {now : ℕ} (hstep : x.deliver u v now = some y) :
    ∃ g, Flood.Step links f g ∧ R.Mirrors links y g := by
  cases hwire : x.wire u v with
  | nil =>
      rw [GossipNet.deliver, hwire] at hstep
      cases hstep
  | cons message rest =>
      have hne : ∀ a b, f.offer a b ≠ .idle → a ≠ b := by
        rintro a b hoffer rfl
        exact hloop a (hspread.offered a a hoffer).1
      rcases h.head hwire with ⟨htold, rfl, hrest⟩ | ⟨hsent, rfl, hrest⟩ | ⟨hasked, rfl, hrest⟩
      · have huv := hne u v (by simp [htold])
        have hlink := (hspread.offered u v (by simp [htold])).1
        have hold : R.request (f.offer u v) = [] ∧ R.commands (f.offer u v) = [] := by
          rw [htold]
          exact ⟨rfl, rfl⟩
        by_cases hv : f.hearing v = .unaware
        · have hfresh := h.prepared u v hlink hv
          rw [htold] at hfresh
          obtain ⟨relay, node, hhandled, hunaware, hwaiting⟩ := R.asks now (h.unaware v hv) hfresh
          obtain ⟨z, hz, -, hreply, -⟩ := GossipNet.deliver_eq huv hwire hhandled
          obtain rfl := Option.some.inj (hz.symm.trans hstep)
          have hmirrors := h.offered huv (hreply _ rfl) hold
            ⟨(rfl : R.offered .asked = []), rfl, rfl⟩ hrest (fun _ ↦ ⟨hv, hunaware, hwaiting⟩)
            (fun hne ↦ (hne hv).elim) (List.append_nil _).symm
          refine ⟨_, .ask u v htold hv, ?_⟩
          rwa [Flood.setOffer_setHearing] at hmirrors
        · obtain ⟨relay, node, hhandled, haware⟩ := R.ignores now (h.aware v hv)
          obtain ⟨z, hz, -, -, hnone⟩ := GossipNet.deliver_eq huv hwire hhandled
          obtain rfl := Option.some.inj (hz.symm.trans hstep)
          have hmirrors := h.offered huv (hnone rfl) hold
            ⟨(rfl : R.offered .settled = []), rfl, rfl⟩ hrest (fun heq ↦ (hv heq).elim)
            (fun _ ↦ haware) (List.append_nil _).symm
          refine ⟨_, .ignore u v htold hv, ?_⟩
          rwa [Flood.setOffer_setHearing] at hmirrors
      · have huv := hne u v (by simp [hsent])
        have hlink := (hspread.offered u v (by simp [hsent])).1
        have hold : R.request (f.offer u v) = [] ∧ R.commands (f.offer u v) = [] := by
          rw [hsent]
          exact ⟨rfl, rfl⟩
        by_cases hv : f.hearing v = .unaware
        · have hwaiting := h.prepared u v hlink hv
          rw [hsent] at hwaiting
          obtain ⟨relay, node, hhandled, haware⟩ := R.takes now (h.unaware v hv) hwaiting
          obtain ⟨z, hz, hannounce, -, -⟩ := GossipNet.deliver_eq huv hwire hhandled
          obtain rfl := Option.some.inj (hz.symm.trans hstep)
          refine ⟨_, .learn u v hsent hv, h.offered huv (hannounce _ rfl) hold
            ⟨rfl, rfl, rfl⟩ hrest (fun heq ↦ by cases heq) (fun _ ↦ haware) ?_⟩
          rw [hv]
          rfl
        · obtain ⟨relay, node, hhandled, haware⟩ := R.drops now (h.aware v hv)
          obtain ⟨z, hz, -, -, hnone⟩ := GossipNet.deliver_eq huv hwire hhandled
          obtain rfl := Option.some.inj (hz.symm.trans hstep)
          have hmirrors := h.offered huv (hnone rfl) hold
            ⟨(rfl : R.offered .settled = []), rfl, rfl⟩ hrest (fun heq ↦ (hv heq).elim)
            (fun _ ↦ haware) (List.append_nil _).symm
          refine ⟨_, .drop u v hsent hv, ?_⟩
          rwa [Flood.setOffer_setHearing] at hmirrors
      · have huv := (hne v u (by simp [hasked])).symm
        have hv : f.hearing v ≠ .unaware := by
          rw [(hspread.offered v u (by simp [hasked])).2]
          exact Hearing.aware_ne
        obtain ⟨relay, node, hhandled, haware⟩ := R.sends now (h.aware v hv)
        obtain ⟨z, hz, -, hreply, -⟩ := GossipNet.deliver_eq huv hwire hhandled
        obtain rfl := Option.some.inj (hz.symm.trans hstep)
        exact ⟨_, .send v u hasked, h.requested huv (hreply _ rfl) hasked hrest hv haware⟩

theorem Mirrors.takeCommand (h : R.Mirrors links x f) (hspread : f.Spread links)
    (hloop : ∀ v, (v, v) ∉ links) (hstep : x.takeCommand u v = some y) :
    ∃ g, Flood.Step links f g ∧ R.Mirrors links y g := by
  have hcommands := h.commands u v
  cases hqueue : x.commands u v with
  | nil =>
      rw [GossipNet.takeCommand, hqueue] at hstep
      cases hstep
  | cons message rest =>
      rw [hqueue] at hcommands
      have hqueued : f.offer u v = .queued := by
        cases hoffer : f.offer u v with
        | queued => rfl
        | _ =>
            rw [hoffer] at hcommands
            cases hcommands
      have huv : u ≠ v := by
        rintro rfl
        exact hloop u (hspread.offered u u (by simp [hqueued])).1
      rw [hqueued] at hcommands
      obtain ⟨rfl, rfl⟩ := List.cons.inj hcommands
      rw [GossipNet.takeCommand, hqueue] at hstep
      obtain rfl := Option.some.inj hstep
      refine ⟨_, .tell u v hqueued, h.same, h.unaware, h.aware, h.events, fun a b ↦ ?_,
        fun a b ↦ ?_, fun a b hlink hb ↦ ?_⟩
      · rw [Flood.setOffer_offer]
        apply (GossipNet.update_update x.commands u v a b []).trans
        split
        · rfl
        · exact h.commands a b
      · rw [GossipNet.setWire_wire, Flood.setOffer_offer, Flood.setOffer_offer]
        by_cases hto : a = u ∧ b = v
        · obtain ⟨rfl, rfl⟩ := hto
          have hwire := h.wire a b
          rw [hqueued] at hwire
          rw [if_pos ⟨rfl, rfl⟩, if_pos ⟨rfl, rfl⟩, if_neg fun heq ↦ huv heq.2]
          exact (hwire.append_right [Message.inv [R.item]]).trans List.perm_append_comm
        · rw [if_neg hto, if_neg hto]
          split
          · rename_i heq
            have hback := h.wire a b
            rw [heq.1, heq.2, hqueued] at hback
            rw [heq.1, heq.2]
            exact hback
          · exact h.wire a b
      · rw [Flood.setOffer_offer]
        split
        · rename_i heq
          have hprepared := h.prepared a b hlink hb
          rw [heq.1, heq.2, hqueued] at hprepared
          rw [heq.1, heq.2]
          exact hprepared
        · exact h.prepared a b hlink hb

theorem Mirrors.takeEvent (h : R.Mirrors links x f) (hspread : f.Spread links)
    (hstep : x.takeEvent v = some y) : ∃ g, Flood.Step links f g ∧ R.Mirrors links y g := by
  have hevents := h.events v
  cases hqueue : x.events v with
  | nil =>
      rw [GossipNet.takeEvent, hqueue] at hstep
      cases hstep
  | cons event rest =>
      obtain ⟨origin, items⟩ := event
      rw [hqueue] at hevents
      cases hheard : f.hearing v with
      | spreading source =>
          rw [hheard] at hevents
          obtain ⟨hevent, rfl⟩ := List.cons.inj hevents
          obtain ⟨rfl, rfl⟩ := Prod.mk.inj hevent
          have hfilter : ([R.item].filter fun item ↦
              item.invType = .block ∨ item.invType = .transaction) = [R.item] := by
            simp [R.relayed]
          rw [GossipNet.takeEvent, hqueue] at hstep
          simp only [hfilter, GossipNet.relayInventory, List.cons_ne_nil, if_false] at hstep
          obtain rfl := Option.some.inj hstep
          have hidle : ∀ w, f.offer v w = .idle := by
            intro w
            by_contra hoffer
            have haware := (hspread.offered v w hoffer).2
            rw [hheard] at haware
            cases haware
          have hsame : ∀ a b, R.offered ((f.announce links v origin).offer a b) =
              R.offered (f.offer a b) ∧ R.request ((f.announce links v origin).offer a b) =
                R.request (f.offer a b) := by
            intro a b
            rw [Flood.announce_offer]
            split
            · rename_i heq
              rw [heq.1, hidle]
              exact ⟨rfl, rfl⟩
            · exact ⟨rfl, rfl⟩
          refine ⟨_, .announce v origin hheard, h.same, fun w hw ↦ ?_, fun w hw ↦ ?_,
            fun w ↦ ?_, fun a b ↦ ?_, fun a b ↦ ?_, fun a b hlink hb ↦ ?_⟩
          · have hwv : w ≠ v := by
              rintro rfl
              rw [Flood.announce_hearing_self] at hw
              cases hw
            rw [Flood.announce_hearing_ne _ _ _ hwv] at hw
            exact h.unaware w hw
          · by_cases hwv : w = v
            · rw [hwv]
              exact h.aware v (by rw [hheard]; exact Hearing.spreading_ne)
            · rw [Flood.announce_hearing_ne _ _ _ hwv] at hw
              exact h.aware w hw
          · by_cases hwv : w = v
            · rw [hwv, Flood.announce_hearing_self]
              exact Function.update_self ..
            · rw [Flood.announce_hearing_ne _ _ _ hwv]
              exact (Function.update_of_ne hwv ..).trans (h.events w)
          · rw [Flood.announce_offer]
            by_cases hav : a = v
            · subst hav
              apply (congrFun (Function.update_self ..) b).trans
              have hnone := h.commands a b
              rw [hidle] at hnone
              simp only [h.same, true_and]
              split
              · rw [hnone]
                rfl
              · rw [hnone, hidle]
            · rw [if_neg fun heq ↦ hav heq.1]
              exact (congrFun (Function.update_of_ne hav ..) b).trans (h.commands a b)
          · rw [(hsame a b).1, (hsame b a).2]
            exact h.wire a b
          · have hbv : b ≠ v := by
              rintro rfl
              rw [Flood.announce_hearing_self] at hb
              cases hb
            rw [Flood.announce_hearing_ne _ _ _ hbv] at hb
            have hprepared := h.prepared a b hlink hb
            rw [Flood.announce_offer]
            split
            · rename_i heq
              rw [heq.1, hidle] at hprepared
              rw [heq.1]
              exact hprepared
            · exact hprepared
      | _ =>
          rw [hheard] at hevents
          cases hevents

theorem Mirrors.step (h : R.Mirrors links x f) (hspread : f.Spread links)
    (hloop : ∀ v, (v, v) ∉ links) {action : GossipAction V} (hstep : x.step action = some y) :
    ∃ g, Flood.Step links f g ∧ R.Mirrors links y g := by
  cases action with
  | deliver u v now => exact h.deliver hspread hloop hstep
  | takeCommand u v => exact h.takeCommand hspread hloop hstep
  | takeEvent v => exact h.takeEvent hspread hstep

/-- Where no step is left the rumour is at rest. -/
theorem Mirrors.quiet (h : R.Mirrors links x f) (hspread : f.Spread links)
    (hloop : ∀ v, (v, v) ∉ links) (hquiet : ∀ action, x.step action = none) :
    (∀ v origin, f.hearing v ≠ .spreading origin) ∧
      ∀ u v, f.offer u v = .idle ∨ f.offer u v = .settled := by
  have hevents : ∀ v, x.events v = [] := fun v ↦
    GossipNet.events_of_idle (hquiet (.takeEvent v))
  refine ⟨fun v origin hheard ↦ ?_, fun u v ↦ ?_⟩
  · have hpending := h.events v
    rw [hevents, hheard] at hpending
    cases hpending
  · by_cases huv : u = v
    · subst huv
      left
      by_contra hoffer
      exact hloop u (hspread.offered u u hoffer).1
    · have hcommands := h.commands u v
      have hto := h.wire u v
      have hback := h.wire v u
      rw [GossipNet.commands_of_idle (hquiet (.takeCommand u v))] at hcommands
      rw [GossipNet.wire_of_idle (hquiet (.deliver u v 0))] at hto
      rw [GossipNet.wire_of_idle (hquiet (.deliver v u 0))] at hback
      obtain ⟨hoffered, -⟩ := List.append_eq_nil_iff.mp hto.nil_eq.symm
      obtain ⟨-, hrequest⟩ := List.append_eq_nil_iff.mp hback.nil_eq.symm
      cases hoffer : f.offer u v with
      | idle => exact .inl rfl
      | settled => exact .inr rfl
      | queued =>
          rw [hoffer] at hcommands
          cases hcommands
      | asked =>
          rw [hoffer] at hrequest
          cases hrequest
      | _ =>
          rw [hoffer] at hoffered
          cases hoffered

omit [DecidableEq V] in
/-- A queue holds at most what one offer in each direction puts there. -/
theorem Mirrors.hasRoom (h : R.Mirrors links x f) : x.HasRoom where
  events v := by
    have hlength : (R.events (f.hearing v)).length ≤ 1 := by
      cases f.hearing v <;> simp [Rumour.events]
    rw [h.events]
    exact hlength.trans_lt (by decide)
  commands u v := by
    have hlength : (R.commands (f.offer u v)).length ≤ 1 := by
      cases f.offer u v <;> simp [Rumour.commands]
    rw [h.commands]
    exact hlength.trans_lt (by decide)
  wire u v := by
    have hoffered : ∀ offer, (R.offered offer).length ≤ 1 := fun offer ↦ by
      cases offer <;> simp [Rumour.offered]
    have hrequest : ∀ offer, (R.request offer).length ≤ 1 := fun offer ↦ by
      cases offer <;> simp [Rumour.request]
    rw [(h.wire u v).length_eq, List.length_append]
    exact (Nat.add_le_add (hoffered _) (hrequest _)).trans_lt (by decide)

/-- One node has it, and its manager has queued the announcement for all its peers. -/
structure Starts (R : Rumour V) (links : Finset (V × V)) (source : V) (x : GossipNet V) :
    Prop where
  same : x.links = links
  aware : R.Aware source (x.node source)
  unaware : ∀ v, v ≠ source → R.Unaware v (x.node v)
  fresh : ∀ u v, v ≠ source → (u, v) ∈ links → R.Fresh v (x.relay v u)
  events : ∀ v, x.events v = []
  commands : ∀ u v, x.commands u v =
    if u = source ∧ (u, v) ∈ links then [Message.inv [R.item]] else []
  wire : ∀ u v, x.wire u v = []

theorem Starts.mirrors {source : V} (h : R.Starts links source x) :
    R.Mirrors links x (Flood.started links source) where
  same := h.same
  unaware v hv := by
    refine h.unaware v fun heq ↦ ?_
    rw [Flood.started_hearing, if_pos heq] at hv
    cases hv
  aware v hv := by
    have hsource : v = source := by
      by_contra hne
      exact hv (if_neg hne)
    exact hsource ▸ h.aware
  events v := by
    rw [h.events, Flood.started_hearing]
    split <;> rfl
  commands u v := by
    rw [h.commands, Flood.started_offer]
    split <;> rfl
  wire u v := by
    have hoffered : ∀ a b, R.offered ((Flood.started links source).offer a b) = [] := by
      intro a b
      rw [Flood.started_offer]
      split <;> rfl
    have hrequest : ∀ a b, R.request ((Flood.started links source).offer a b) = [] := by
      intro a b
      rw [Flood.started_offer]
      split <;> rfl
    rw [h.wire, hoffered, hrequest]
    exact List.Perm.refl []
  prepared u v hlink hv := by
    have hne : v ≠ source := by
      rintro rfl
      rw [Flood.started_hearing, if_pos rfl] at hv
      cases hv
    have hfresh := h.fresh u v hne hlink
    rw [Flood.started_offer]
    split <;> exact hfresh

/-- A run spreads what one node offers to all that it is connected with, in a number of steps
that the connections bound. -/
theorem Starts.floods [Fintype V] {source : V} (h : R.Starts links source x)
    (hloop : ∀ v, (v, v) ∉ links) {actions : List (GossipAction V)}
    (hrun : execute GossipNet.step x actions = some y) :
    actions.length ≤ Fintype.card V + 4 * links.card ∧ y.links = links ∧ y.HasRoom ∧
      (∀ v, R.Unaware v (y.node v) ∨ R.Aware v (y.node v)) ∧
        ((∀ action, y.step action = none) →
          ∀ v, Relation.ReflTransGen (fun a b ↦ (a, b) ∈ links) source v →
            R.Aware v (y.node v)) := by
  let Stage (n : ℕ) (x : GossipNet V) : Prop := ∃ f : Flood V, R.Mirrors links x f ∧
    f.Spread links ∧ f.hearing source ≠ .unaware ∧ f.rank links ≤ n
  have hstep : ∀ n x action y, Stage n x → GossipNet.step x action = some y →
      ∃ m < n, Stage m y := by
    rintro n x action y ⟨f, hmirrors, hspread, hsource, hrank⟩ hxy
    obtain ⟨g, hfg, hg⟩ := hmirrors.step hspread hloop hxy
    exact ⟨_, (hfg.rank_lt hspread).trans_le hrank, g, hg, hfg.spread hspread,
      hfg.keeps hsource, le_rfl⟩
  have hheard : (Flood.started links source).hearing source ≠ .unaware := by
    rw [Flood.started_hearing, if_pos rfl]
    exact Hearing.aware_ne
  have hstart : Stage (Fintype.card V + 4 * links.card) x :=
    ⟨_, h.mirrors, Flood.started_spread links source, hheard, Flood.rank_started_le links source⟩
  obtain ⟨m, hlength, f, hmirrors, hspread, hsource, -⟩ := execute_falls hstep hstart hrun
  refine ⟨by omega, hmirrors.same, hmirrors.hasRoom, fun v ↦ ?_, fun hquiet v hreach ↦ ?_⟩
  · by_cases hv : f.hearing v = .unaware
    · exact .inl (hmirrors.unaware v hv)
    · exact .inr (hmirrors.aware v hv)
  · obtain ⟨hhearing, hoffer⟩ := hmirrors.quiet hspread hloop hquiet
    have hknown : f.hearing source = .aware := by
      cases hcase : f.hearing source with
      | unaware => exact (hsource hcase).elim
      | spreading origin => exact (hhearing source origin hcase).elim
      | aware => rfl
    have hv := hspread.quiet hhearing hoffer hreach hknown
    exact hmirrors.aware v (by rw [hv]; exact Hearing.aware_ne)

end Rumour

end Bitrst

namespace Bitrst.Sample

/-- The end of the row where the news is. -/
def rowEnd : Fin 3 := 0

/-- Three nodes in a row. -/
def row : Finset (Fin 3 × Fin 3) := {(0, 1), (1, 0), (1, 2), (2, 1)}

theorem row_connected (v : Fin 3) :
    Relation.ReflTransGen (fun a b ↦ (a, b) ∈ row) rowEnd v := by
  have hone : (0, 1) ∈ row := by decide
  have htwo : (1, 2) ∈ row := by decide
  have hv : v = 0 ∨ v = 1 ∨ v = 2 := by
    revert v
    decide
  rcases hv with rfl | rfl | rfl
  · exact .refl
  · exact .single hone
  · exact .tail (.single hone) htwo

def alongRow : List (GossipAction (Fin 3)) :=
  [.takeCommand 0 1, .deliver 0 1 0, .deliver 1 0 0, .deliver 0 1 1, .takeEvent 1,
    .takeCommand 1 2, .deliver 1 2 0, .deliver 2 1 1, .deliver 1 2 1, .takeEvent 2]

/-- Nothing is on its way. -/
def silent (x : GossipNet (Fin 3)) : Bool :=
  [0, 1, 2].all fun u ↦ (x.events u).isEmpty &&
    [0, 1, 2].all fun v ↦ (x.commands u v).isEmpty && (x.wire u v).isEmpty

theorem silent_stops {x : GossipNet (Fin 3)} (h : silent x = true)
    (action : GossipAction (Fin 3)) : x.step action = none := by
  have hall : ∀ v : Fin 3, v ∈ [0, 1, 2] := by decide
  have hnode := fun v ↦ Bool.and_eq_true_iff.mp (List.all_eq_true.mp h v (hall v))
  have hpair := fun u v ↦ Bool.and_eq_true_iff.mp (List.all_eq_true.mp (hnode u).2 v (hall v))
  cases action with
  | deliver u v now =>
      have hwire := List.isEmpty_iff.mp (hpair u v).2
      simp only [GossipNet.step, GossipNet.deliver, hwire]
  | takeCommand u v =>
      have hcommands := List.isEmpty_iff.mp (hpair u v).1
      simp only [GossipNet.step, GossipNet.takeCommand, hcommands]
  | takeEvent v =>
      have hevents := List.isEmpty_iff.mp (hnode v).1
      simp only [GossipNet.step, GossipNet.takeEvent, hevents]

end Bitrst.Sample
