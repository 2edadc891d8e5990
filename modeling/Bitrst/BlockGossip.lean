import Bitrst.Gossip

/-!
# A block reaches the network

Every node can connect the block on top of what it has.  The one that has it
announces it, and each that takes it over announces it to its other peers, until
all that are connected have it, in whatever order the messages are handled and
whatever the other threads do to the pools of transactions.
-/

namespace Bitrst

open Support

/-! ## Nodes whose pool can be synchronised -/

/-- A reader of the events at this cursor is handed the events that it misses, or can still
recover the blocks that were disconnected. -/
def Chain.ServesFrom (chain : Chain) (cursor : ChainEventJournal.ChainEventCursor) : Prop :=
  (∃ events moved, chain.eventJournal.collectEvents cursor = (.ok events, moved)) ∨
    chain.RecoversFrom cursor.lastSeq

/-- The node has this chain, and no other thread changes it or breaks the lock of the pool. -/
structure Node.Works (node : Node) (chain : Chain) : Prop extends node.Owns chain where
  keepsPool : ∀ k s, s.mempool.poisoned = false → (node.others k s).mempool.poisoned = false
  pool : node.shared.mempool.poisoned = false

namespace Node.Works

variable {node : Node} {chain : Chain}

theorem lock (h : node.Works chain) : node.lock.Works chain :=
  ⟨h.toOwns.lock, h.keepsPool, h.keepsPool _ _ h.pool⟩

theorem lockInner (h : node.Works chain) : node.lockInner.Works chain :=
  ⟨h.toOwns.lockInner, h.keepsPool, h.keepsPool _ _ h.pool⟩

theorem setMempool (h : node.Works chain) (pool : Mempool) : (node.setMempool pool).Works chain :=
  ⟨h.toOwns.setMempool pool, h.keepsPool, rfl⟩

theorem setChain (h : node.Works chain) (next : Chain) :
    (node.setChain ⟨next, false⟩).Works next :=
  ⟨h.toOwns.setChain next, h.keepsPool, h.pool⟩

theorem unpoisoned (h : node.Works chain) : node.shared.chain.poisoned = false := by
  rw [h.toOwns.chain]

theorem available (h : node.Works chain) : ¬ node.Unavailable := by
  rintro (hchain | hpool)
  · rw [h.lock.unpoisoned] at hchain
    cases hchain
  · rw [h.lock.lockInner.pool] at hpool
    cases hpool

/-- A change of the pool that succeeds is made. -/
theorem changePool (h : node.Works chain) (relay : PeerRelayState)
    {change : Chain → Mempool → Except MempoolHandleError Unit × Mempool}
    (hchange : ∀ pool, (change chain pool).1 = .ok ()) :
    ∃ next, changePool relay change node = (.ok (), relay, next) ∧ next.Works chain := by
  have hchain : node.lock.chain = chain := by
    rw [Node.chain, h.lock.toOwns.chain]
  rw [changePool_available relay change h.available, hchain]
  have hok := hchange node.lock.lockInner.mempool
  cases hresult : change chain node.lock.lockInner.mempool with
  | mk result pool =>
    rw [hresult] at hok
    obtain rfl : result = .ok () := hok
    exact ⟨_, rfl, h.lock.lockInner.setMempool pool⟩

variable [Crypto]

/-- The pool is synchronised. -/
theorem syncMempool (h : node.Works chain) (relay : PeerRelayState)
    (hserves : chain.ServesFrom relay.chainEvents) :
    ∃ synced next, syncMempool relay node = (.ok (), synced, next) ∧ next.Works chain := by
  have hchain : node.lock.chain = chain := by
    rw [Node.chain, h.lock.toOwns.chain]
  cases hcollect : chain.eventJournal.collectEvents relay.chainEvents with
  | mk result moved =>
    cases result with
    | ok events =>
        rw [syncMempool_collected _ _ h.lock.unpoisoned (hchain.symm ▸ hcollect)]
        split
        · exact ⟨_, _, rfl, h.lock⟩
        · obtain ⟨next, hnext, hworks⟩ :=
            h.lock.changePool { relay with chainEvents := moved } fun _ ↦ (rfl :
              (replay events chain _).1 = .ok ())
          exact ⟨_, next, hnext, hworks⟩
    | error e =>
        have hrecovers : chain.RecoversFrom relay.chainEvents.lastSeq := by
          rcases hserves with ⟨events, cursor, hok⟩ | hrecovers
          · rw [hok] at hcollect
            cases hcollect
          · exact hrecovers
        rw [syncMempool_lagging _ _ h.lock.unpoisoned (hchain.symm ▸ hcollect),
          if_neg (by rw [h.lock.lock.unpoisoned]; decide)]
        obtain ⟨next, hnext, hworks⟩ := h.lock.lock.changePool
          { relay with chainEvents := node.lock.lock.chain.eventJournal.eventCursor }
          fun pool ↦ (resync_ok_iff relay.chainEvents.lastSeq chain pool).mpr hrecovers
        exact ⟨_, next, hnext, hworks⟩

end Node.Works

/-! ## A block that every node can connect -/

section

variable [Crypto] [Features] {genesis block : Block} {before after : Chain}

/-- Without orphans a chain takes the block as its next one. -/
structure Chain.Takes (genesis block : Block) (before after : Chain) : Prop where
  indexed : Chain.Indexed genesis before
  pool : before.orphans = ∅
  extension : Chain.Extension before [block] after

namespace Chain.Takes

theorem unknown (h : Takes genesis block before after) :
    before.hasBlockHash block.hash = false := by
  have hnone := h.extension.fresh.1 block List.mem_cons_self
  rw [Chain.hasBlockHash, hnone, h.pool]
  rfl

theorem connects (h : Takes genesis block before after) (order : OrphanOrder) :
    ∃ height, Chain.connectBlock order block before =
      (.ok (.connected height block.hash), after) := by
  obtain ⟨hindexed, hpool, hext⟩ := h
  cases hext with
  | @cons _ _ _ parent work _ admitted tip rest =>
      cases rest
      exact ⟨parent.height + 1, (connectBlock_eq_place hindexed hpool order admitted).trans
        (place_extended tip)⟩

theorem known (h : Takes genesis block before after) :
    ∃ entry, after.known.lookup block.hash = some entry ∧ entry.block = block := by
  obtain ⟨-, -, hext⟩ := h
  cases hext with
  | @cons _ _ _ parent work _ _ _ rest =>
      cases rest
      exact ⟨_, (pushTip_known _ _ _ _ _).trans (if_pos rfl), rfl⟩

theorem blockByHash (h : Takes genesis block before after) :
    after.blockByHash block.hash = some block := by
  obtain ⟨entry, hentry, hblock⟩ := h.known
  rw [Chain.blockByHash, hentry]
  exact congrArg some hblock

theorem hasBlockHash (h : Takes genesis block before after) :
    after.hasBlockHash block.hash = true := by
  obtain ⟨entry, hentry, -⟩ := h.known
  rw [Chain.hasBlockHash, hentry]
  rfl

/-- The block is refused the second time. -/
theorem refuses (h : Takes genesis block before after) (order : OrphanOrder) :
    Chain.connectBlock order block after = (.error (.error .blockAlreadyKnown), after) := by
  obtain ⟨entry, hentry, -⟩ := h.known
  have hlimits := h.extension.limits block List.mem_cons_self
  have hadm : after.admission block = .error (.error .blockAlreadyKnown) := by
    rw [admission, hlimits]
    simp only [hentry, Option.isSome_some, true_or, if_true]
  rw [connectBlock_eq, connectAlone_eq, hadm]

end Chain.Takes

variable {V : Type} {before after : V → Chain}

/-- The block as something that the nodes pass on. -/
def blockRumour (block : Block) (before after : V → Chain)
    (h : ∀ v, Chain.Takes genesis block (before v) (after v)) : Rumour V where
  item := ⟨.block, block.hash⟩
  data := Message.block block
  Unaware v node := node.Works (before v)
  Aware v node := node.Works (after v)
  Fresh v relay := relay.blockRequests.Room [block] ∧ (after v).ServesFrom relay.chainEvents
  Waiting v relay := (after v).ServesFrom relay.chainEvents
  relayed := .inl rfl
  asks {v relay node} now hnode hfresh := by
    have hroom : relay.blockRequests.Room ([] ++ [block]) := hfresh.1
    obtain ⟨asking, hhandled, -, hcursor⟩ := hnode.toOwns.handleInv (h v).unknown hroom
      (fun _ hother ↦ by cases hother) now
    exact ⟨asking, node.lock, hhandled, hnode.lock, hcursor ▸ hfresh.2⟩
  ignores {v relay node} now hnode := by
    refine ⟨relay, node.lock, ?_, hnode.lock⟩
    simp only [handlePeerMessage, Message.inv, Bitrst.handleInv, requestUnknown,
      ChainHandle.hasBlock, hnode.toOwns.read, (h v).hasBlockHash, List.isEmpty_nil, if_true]
  sends {v relay node} now hnode := by
    refine ⟨relay, node.lock, ?_, hnode.lock⟩
    have hblock : ChainHandle.getBlock block.hash node = (.ok (some block), node.lock) := by
      rw [ChainHandle.getBlock, hnode.toOwns.read, (h v).blockByHash]
    simp only [handlePeerMessage, Message.getdata, handleGetdata_block hblock]
  takes {v relay node} now hnode hwaiting := by
    obtain ⟨height, hconnect⟩ := (h v).connects (node.lock.order node.lock.locks)
    obtain ⟨synced, next, hsync, hnext⟩ := (hnode.lock.setChain (after v)).syncMempool
      { relay with blockRequests := relay.blockRequests.clear block.hash } hwaiting
    exact ⟨synced, next,
      handleBlock_synced (hnode.toOwns.connectBlock hconnect) rfl hsync now, hnext⟩
  drops {v relay node} now hnode := by
    have hrefuses := (h v).refuses (node.lock.order node.lock.locks)
    refine ⟨relay, node.lock.setChain ⟨after v, false⟩, ?_, hnode.lock.setChain (after v)⟩
    have hconnect : ChainHandle.connectBlock block node =
        (.error (.chain (.error .blockAlreadyKnown)), node.lock.setChain ⟨after v, false⟩) := by
      simp only [ChainHandle.connectBlock, hnode.toOwns.lock.chain, Bool.false_eq_true, if_false,
        Node.chain, hrefuses]
      rfl
    simp only [handlePeerMessage, Message.block, handleBlock, hconnect]

theorem Chain.takes_of_connected {before after : Chain} {order : OrphanOrder} {height : ℕ}
    (hrun : Chain.Reachable genesis before) (hpool : before.orphans = ∅)
    (h : Chain.connectBlock order block before = (.ok (.connected height block.hash), after)) :
    Chain.Takes genesis block before after :=
  ⟨hrun.coherent.indexed, hpool, extension_of_connected hrun.coherent.indexed hpool h⟩

/-- A block that every node can connect, and that one of them announces, reaches all that are
connected with it. -/
theorem GossipNet.block_reaches_all [DecidableEq V] [Fintype V] {x y : GossipNet V} {source : V}
    {actions : List (GossipAction V)} (hrun : ∀ v, Chain.Reachable genesis (before v))
    (hpool : ∀ v, (before v).orphans = ∅)
    (hconnects : ∀ v, ∃ order height, Chain.connectBlock order block (before v) =
      (.ok (.connected height block.hash), after v))
    (hloop : ∀ v, (v, v) ∉ x.links) (hsource : (x.node source).Works (after source))
    (hothers : ∀ v, v ≠ source → (x.node v).Works (before v) ∧ ∀ u, (u, v) ∈ x.links →
      (x.relay v u).blockRequests.Room [block] ∧ (after v).ServesFrom (x.relay v u).chainEvents)
    (hevents : ∀ v, x.events v = []) (hwire : ∀ u v, x.wire u v = [])
    (hcommands : ∀ u v, x.commands u v =
      if u = source ∧ (u, v) ∈ x.links then [Message.inv [⟨.block, block.hash⟩]] else [])
    (h : execute GossipNet.step x actions = some y) :
    actions.length ≤ Fintype.card V + 4 * x.links.card ∧ y.links = x.links ∧ y.HasRoom ∧
      (∀ v, (y.node v).chain = before v ∨ (y.node v).chain = after v) ∧
        ((∀ action, y.step action = none) →
          ∀ v, Relation.ReflTransGen (fun a b ↦ (a, b) ∈ x.links) source v →
            (y.node v).chain = after v ∧ (y.node v).chain.tipHash = block.hash) := by
  have htakes : ∀ v, Chain.Takes genesis block (before v) (after v) := by
    intro v
    obtain ⟨order, height, hconnect⟩ := hconnects v
    exact Chain.takes_of_connected (hrun v) (hpool v) hconnect
  have hstart : (blockRumour block before after htakes).Starts x.links source x :=
    ⟨rfl, hsource, fun v hv ↦ (hothers v hv).1, fun u v hv hlink ↦ (hothers v hv).2 u hlink,
      hevents, hcommands, hwire⟩
  have hchain : ∀ {node : Node} {chain : Chain}, node.Works chain → node.chain = chain := by
    intro node chain hworks
    rw [Node.chain, hworks.toOwns.chain]
  obtain ⟨hlength, hlinks, hroom, hnodes, hquiet⟩ := hstart.floods hloop h
  refine ⟨hlength, hlinks, hroom, fun v ↦ (hnodes v).imp hchain hchain, fun hstop v hreach ↦ ?_⟩
  have hafter : (y.node v).chain = after v := hchain (hquiet hstop v hreach)
  refine ⟨hafter, ?_⟩
  rw [hafter]
  exact Chain.tipHash_of_append (before v).blocks (htakes v).extension.blocks_eq

end

end Bitrst

namespace Bitrst.Sample

open Support

def rowNet : GossipNet (Fin 3) where
  links := row
  node v := if v = rowEnd then alone (grown side) else alone start
  relay _ _ := .withEventCursor ⟨0⟩
  events _ := []
  commands u v := if u = rowEnd ∧ (u, v) ∈ row then [Message.inv [⟨.block, side.hash⟩]] else []
  wire _ _ := []

theorem rowNet_silent : (execute GossipNet.step rowNet alongRow).map silent = some true := by
  decide +kernel

theorem side_reaches_row : ∃ y, execute GossipNet.step rowNet alongRow = some y ∧
    ∀ v, (y.node v).chain.tipHash = side.hash := by
  obtain ⟨y, hy, hsilent⟩ := Option.map_eq_some_iff.mp rowNet_silent
  have hconnects : ∀ _ : Fin 3, ∃ order height, Chain.connectBlock order side start =
      (.ok (.connected height side.hash), grown side) := fun _ ↦ ⟨order, 1, side_connects⟩
  have hworks : ∀ chain, (alone chain).Works chain := fun _ ↦
    ⟨⟨fun _ _ ↦ rfl, rfl⟩, fun _ _ h ↦ h, rfl⟩
  have hserves : (grown side).ServesFrom ⟨0⟩ := .inr fun _ h ↦ by cases h
  have hroom : (PeerRelayState.withEventCursor ⟨0⟩).blockRequests.Room [side] :=
    ⟨fun _ _ ↦ rfl, by decide⟩
  have hothers : ∀ v : Fin 3, v ≠ rowEnd → (rowNet.node v).Works start ∧
      ∀ u, (u, v) ∈ rowNet.links → (rowNet.relay v u).blockRequests.Room [side] ∧
        (grown side).ServesFrom (rowNet.relay v u).chainEvents := by
    intro v hv
    have hnode : rowNet.node v = alone start := if_neg hv
    exact ⟨hnode ▸ hworks start, fun _ _ ↦ ⟨hroom, hserves⟩⟩
  have hsource : (rowNet.node rowEnd).Works (grown side) := hworks (grown side)
  obtain ⟨-, -, -, -, hreached⟩ := GossipNet.block_reaches_all (fun _ ↦ start_reachable)
    (fun _ ↦ rfl) hconnects (by decide) hsource hothers (fun _ ↦ rfl) (fun _ _ ↦ rfl)
    (fun _ _ ↦ rfl) hy
  exact ⟨y, hy, fun v ↦ (hreached (silent_stops hsilent) v (row_connected v)).2⟩

end Bitrst.Sample
