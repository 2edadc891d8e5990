import Bitrst.BlockRequests
import Bitrst.LinearDelivery
import Bitrst.PeerLink
import Bitrst.Support.Reachability

/-!
# Catching up with a peer

A node that is told of a block far ahead asks its peer for it, and with each block
that it cannot connect for the parent of that.  The blocks come from the last one
back to the first that is missing, and wait; that one connects and takes all the
others along.  Both sides run the handlers of `relay.rs` on whole messages.
-/

namespace Bitrst

open Support

theorem ChainHandle.collectEvents_node (cursor : ChainEventJournal.ChainEventCursor)
    (node : Node) : (collectEvents cursor node).2.2 = node.lock := by
  unfold collectEvents
  dsimp only
  split
  · rfl
  · split <;> rfl

/-! ## Handlers on a chain that nobody else touches -/

/-- The other threads leave the chain of the node as it is. -/
def Node.KeepsChain (node : Node) : Prop := ∀ k s, (node.others k s).chain = s.chain

/-- The node has this chain, and nobody but the handlers at work changes it. -/
structure Node.Owns (node : Node) (chain : Chain) : Prop where
  keeps : node.KeepsChain
  chain : node.shared.chain = ⟨chain, false⟩

namespace Node.Owns

variable {node : Node} {chain : Chain}

theorem lock (h : node.Owns chain) : node.lock.Owns chain := ⟨h.keeps, (h.keeps _ _).trans h.chain⟩

theorem lockInner (h : node.Owns chain) : node.lockInner.Owns chain := ⟨h.keeps, h.chain⟩

theorem setMempool (h : node.Owns chain) (pool : Mempool) : (node.setMempool pool).Owns chain :=
  ⟨h.keeps, h.chain⟩

theorem setChain (h : node.Owns chain) (next : Chain) : (node.setChain ⟨next, false⟩).Owns next :=
  ⟨h.keeps, rfl⟩

theorem read {α : Type} (h : node.Owns chain) (f : Chain → α) :
    ChainHandle.read node f = (.ok (f chain), node.lock) := by
  simp only [ChainHandle.read, h.lock.chain, Node.chain, Bool.false_eq_true, if_false]

theorem write {α : Type} (h : node.Owns chain)
    (f : Mempool → Except MempoolHandleError α × Mempool) :
    (MempoolHandle.write node f).2.Owns chain := by
  unfold MempoolHandle.write
  dsimp only
  split
  · exact h.lockInner
  · exact h.lockInner.setMempool _

theorem withChain {α : Type} (h : node.Owns chain) {f : Chain → Node → α × Node}
    (hf : ∀ active other, Node.Owns other chain → (f active other).2.Owns chain) :
    (ChainHandle.withChain node f).2.Owns chain := by
  unfold ChainHandle.withChain
  dsimp only
  split
  · exact h.lock
  · exact hf _ _ h.lock

variable [Crypto]

theorem syncMempool (h : node.Owns chain) (relay : PeerRelayState) :
    (syncMempool relay node).2.2.Owns chain := by
  have hnode := ChainHandle.collectEvents_node relay.chainEvents node
  unfold Bitrst.syncMempool
  generalize ChainHandle.collectEvents relay.chainEvents node = collected at hnode ⊢
  obtain ⟨result, cursor, next⟩ := collected
  obtain rfl : next = node.lock := hnode
  cases result with
  | ok events =>
      have happlied := h.lock.withChain (f := fun active ↦
        MempoolHandle.applyChainEvents events active) fun _ _ hother ↦ hother.write _
      dsimp only
      split
      · exact h.lock
      · split <;>
        · rename_i heq
          rw [heq] at happlied
          exact happlied
  | error e =>
      cases e with
      | chain _ => exact h.lock
      | lockPoisoned => exact h.lock
      | eventCursor _ =>
          have hresynced := h.lock.lock.withChain (f := fun active ↦
            MempoolHandle.resyncToActiveChain active cursor.lastSeq) fun _ _ hother ↦
              hother.write _
          simp only [ChainHandle.eventCursor, h.lock.read]
          split <;>
          · rename_i heq
            rw [heq] at hresynced
            exact hresynced

end Node.Owns

/-! ## Two nodes -/

/-- One end of a connection: what the node keeps for the peer, the node, and the messages that
have arrived. -/
structure SyncSide where
  relay : PeerRelayState
  node : Node
  inbox : List Message

structure SyncLink where
  side : ConnectionDirection → SyncSide

namespace SyncLink

variable {x y : SyncLink} {d : ConnectionDirection}

/-- A side has handled a message. -/
def put (x : SyncLink) (d : ConnectionDirection) (relay : PeerRelayState) (node : Node)
    (rest replies : List Message) : SyncLink where
  side other :=
    if other = d then ⟨relay, node, rest⟩
    else { x.side other with inbox := (x.side other).inbox ++ replies }

/-- An error of a handler ends the connection. -/
def close (x : SyncLink) (d : ConnectionDirection) (relay : PeerRelayState) (node : Node) :
    SyncLink where
  side other := if other = d then ⟨relay, node, []⟩ else { x.side other with inbox := [] }

@[simp] theorem put_self (x : SyncLink) (d : ConnectionDirection) (relay : PeerRelayState)
    (node : Node) (rest replies : List Message) :
    (x.put d relay node rest replies).side d = ⟨relay, node, rest⟩ := if_pos rfl

@[simp] theorem close_self (x : SyncLink) (d : ConnectionDirection) (relay : PeerRelayState)
    (node : Node) : (x.close d relay node).side d = ⟨relay, node, []⟩ := if_pos rfl

@[simp] theorem close_opposite (x : SyncLink) (d : ConnectionDirection) (relay : PeerRelayState)
    (node : Node) :
    (x.close d relay node).side d.opposite = { x.side d.opposite with inbox := [] } :=
  if_neg d.opposite_ne

@[simp] theorem put_at_opposite (x : SyncLink) (d : ConnectionDirection) (relay : PeerRelayState)
    (node : Node) (rest replies : List Message) :
    (x.put d.opposite relay node rest replies).side d =
      { x.side d with inbox := (x.side d).inbox ++ replies } :=
  if_neg d.opposite_ne.symm

@[simp] theorem put_opposite (x : SyncLink) (d : ConnectionDirection) (relay : PeerRelayState)
    (node : Node) (rest replies : List Message) :
    (x.put d relay node rest replies).side d.opposite =
      { x.side d.opposite with inbox := (x.side d.opposite).inbox ++ replies } :=
  if_neg d.opposite_ne

/-- A side handles the next message at a time of its clock.  What it announces goes to others. -/
def step [Crypto] [Features] (x : SyncLink) (action : ConnectionDirection × ℕ) : Option SyncLink :=
  match (x.side action.1).inbox with
  | [] => none
  | message :: rest =>
      match handlePeerMessage (x.side action.1).relay message action.2 (x.side action.1).node with
      | (.ok (.reply messages), relay, node) => some (x.put action.1 relay node rest messages)
      | (.ok _, relay, node) => some (x.put action.1 relay node rest [])
      | (.error _, relay, node) => some (x.close action.1 relay node)

end SyncLink

/-! ## What each side needs -/

/-- The state has these blocks and serves them. -/
def Serves [Crypto] (bs : List Block) (s : Shared) : Prop :=
  s.chain.poisoned = false ∧ ∀ b ∈ bs, s.chain.value.blockByHash b.hash = some b

structure Node.Serving [Crypto] (bs : List Block) (node : Node) : Prop where
  serves : Serves bs node.shared
  others : ∀ k s, Serves bs s → Serves bs (node.others k s)

section

variable [Crypto] {bs rest : List Block} {b : Block} {node : Node} {chain : Chain}

theorem Node.Serving.lock (h : node.Serving bs) : node.lock.Serving bs :=
  ⟨h.others _ _ h.serves, h.others⟩

/-- A block that is found is the reply. -/
theorem handleGetdata_block {next : Node}
    (h : ChainHandle.getBlock b.hash node = (.ok (some b), next)) :
    handleGetdata [⟨.block, b.hash⟩] node = (.reply [Message.block b], next) := by
  simp only [Bitrst.handleGetdata, collectReplies, h, List.isEmpty_cons, Bool.false_eq_true,
    if_false]

theorem Node.Serving.handleGetdata (h : node.Serving bs) (hb : b ∈ bs) :
    handleGetdata [⟨.block, b.hash⟩] node = (.reply [Message.block b], node.lock) := by
  have hlock := h.lock.serves
  apply handleGetdata_block
  simp only [ChainHandle.getBlock, ChainHandle.read, hlock.1, Bool.false_eq_true, if_false,
    Node.chain, hlock.2 b hb]

/-- The tracker has room for requests of these blocks. -/
structure RequestTracker.Room (tracker : RequestTracker) (bs : List Block) : Prop where
  free : ∀ b ∈ bs, tracker.pending.lookup b.hash = none
  fits : tracker.pendingCount + bs.length ≤ tracker.maxPending

theorem RequestTracker.Room.mark {tracker : RequestTracker} (h : tracker.Room (rest ++ [b]))
    (hdistinct : ∀ other ∈ rest, other.hash ≠ b.hash) (now : ℕ) :
    (tracker.markRequested b.hash now).1 = true ∧
      (tracker.markRequested b.hash now).2.Room rest := by
  have hlive : ∀ other ∈ rest ++ [b], (tracker.live now).pending.lookup other.hash = none := by
    intro other hother
    rw [Option.eq_none_iff_forall_ne_some]
    intro request hrequest
    have hold := (RequestTracker.live_lookup.mp hrequest).1
    rw [h.free other hother] at hold
    cases hold
  have hfits := h.fits
  rw [List.length_append, List.length_singleton] at hfits
  have hcount := RequestTracker.live_pendingCount_le tracker now
  have hfree : tracker.Free b.hash now :=
    ⟨hlive b (List.mem_append_right _ List.mem_cons_self), hcount.trans_lt (by omega)⟩
  rw [RequestTracker.markRequested_free hfree]
  refine ⟨rfl, fun other hother ↦ ?_, ?_⟩
  · rw [EntryMap.lookup_insert_ite, if_neg (hdistinct other hother)]
    exact hlive other (List.mem_append_left _ hother)
  · have hnew : b.hash ∉ (tracker.live now).pending := AList.lookup_eq_none.mp hfree.1
    have hlength : ((tracker.live now).pending.insert b.hash ⟨now⟩).entries.length =
        (tracker.live now).pendingCount + 1 := by
      rw [AList.entries_insert_of_notMem hnew, List.length_cons, RequestTracker.pendingCount]
    change ((tracker.live now).pending.insert b.hash ⟨now⟩).entries.length + rest.length ≤
      tracker.maxPending
    omega

/-- A missing block is asked for. -/
theorem Node.Owns.requestMissingBlock (h : node.Owns chain) {relay : PeerRelayState}
    (hnew : chain.hasBlockHash b.hash = false) (hroom : relay.blockRequests.Room (rest ++ [b]))
    (hdistinct : ∀ other ∈ rest, other.hash ≠ b.hash) (now : ℕ) :
    ∃ asking, requestMissingBlock relay b.hash now node =
        (.ok (.reply [Message.getdata [⟨.block, b.hash⟩]]), asking, node.lock) ∧
      asking.blockRequests.Room rest := by
  obtain ⟨hmarked, hmore⟩ := hroom.mark hdistinct now
  refine ⟨{ relay with blockRequests := (relay.blockRequests.markRequested b.hash now).2 }, ?_,
    hmore⟩
  simp only [Bitrst.requestMissingBlock, ChainHandle.hasBlock, h.read, hnew, hmarked, if_true]

/-- So is a block that the peer announces. -/
theorem Node.Owns.handleInv (h : node.Owns chain) {relay : PeerRelayState}
    (hnew : chain.hasBlockHash b.hash = false) (hroom : relay.blockRequests.Room (rest ++ [b]))
    (hdistinct : ∀ other ∈ rest, other.hash ≠ b.hash) (now : ℕ) :
    ∃ asking, handleInv relay [⟨.block, b.hash⟩] now node =
        (.ok (.reply [Message.getdata [⟨.block, b.hash⟩]]), asking, node.lock) ∧
      asking.blockRequests.Room rest ∧ asking.chainEvents = relay.chainEvents := by
  obtain ⟨hmarked, hmore⟩ := hroom.mark hdistinct now
  refine ⟨{ relay with blockRequests := (relay.blockRequests.markRequested b.hash now).2 }, ?_,
    hmore, rfl⟩
  simp only [Bitrst.handleInv, requestUnknown, ChainHandle.hasBlock, h.read, hnew, hmarked,
    if_true, List.nil_append, List.isEmpty_cons, Bool.false_eq_true, if_false]

end

/-! ## The chain that catches up -/

namespace Chain

variable [Crypto] [Features] {genesis block : Block} {bs front rest behind : List Block}
  {before chain final : Chain}

/-- A call that returns a value returns that of its own block. -/
theorem connectBlock_result {order : OrphanOrder} {result first : ConnectResult}
    {placed reached : Chain} (halone : connectAlone order block chain = (.ok first, placed))
    (h : Chain.connectBlock order block chain = (.ok result, reached)) : result = first := by
  rw [connectBlock_eq, halone] at h
  dsimp only at h
  split at h
  · split at h <;> cases h
    rfl
  · cases h
    rfl

omit [Features] in
/-- A block links to the one before it. -/
theorem LinkedAbove.prev_eq {below : Hash256} {parent : Block}
    (h : LinkedAbove below (front ++ parent :: block :: behind)) :
    block.header.prevBlockhash = parent.hash := by
  induction front generalizing below with
  | nil => exact h.2.1
  | cons first front ih => exact ih h.2

omit [Features] in
/-- What the pool holds is at most what was delivered. -/
theorem Partway.orphans_length_le (h : Partway front bs before chain) :
    chain.orphans.entries.length ≤ front.length := by
  have hsub : chain.orphans.keys ⊆ front.map Block.hash := by
    intro hash hhash
    obtain ⟨entry, hentry⟩ := Option.isSome_iff_exists.mp (AList.lookup_isSome.mpr hhash)
    obtain ⟨-, hfront, rfl⟩ := h.pool _ _ hentry
    exact List.mem_map_of_mem hfront
  have hlength := (List.subperm_of_subset chain.orphans.keys_nodup hsub).length_le
  rw [List.length_map] at hlength
  simpa [AList.keys, List.keys] using hlength

/-- A block that was not delivered is new to the chain. -/
theorem Partway.hasBlockHash (h : Partway front bs before chain) (hext : Extension before bs final)
    (hmem : block ∈ bs) (hnew : block ∉ front) : chain.hasBlockHash block.hash = false := by
  have hunknown : chain.known.lookup block.hash = none :=
    h.same.known ▸ hext.fresh.1 block hmem
  have horphan : chain.orphans.lookup block.hash = none := by
    rw [Option.eq_none_iff_forall_ne_some]
    intro entry hentry
    obtain ⟨hentryMem, hfront, hhash⟩ := h.pool _ _ hentry
    exact hnew (hext.eq_of_hash hentryMem hmem hhash ▸ hfront)
  simp only [Chain.hasBlockHash, hunknown, horphan, Option.isSome_none, Bool.or_self]

theorem Partway.admission_none (h : Partway front bs before chain)
    (hext : Extension before bs final) (hmem : block ∈ bs) (hnew : block ∉ front)
    (hhead : bs.head? ≠ some block) : chain.admission block = .ok none := by
  have hknown := h.hasBlockHash hext hmem hnew
  rw [Chain.hasBlockHash, Bool.or_eq_false_iff] at hknown
  refine admission_none_iff.mpr ⟨hext.limits block hmem, Option.not_isSome_iff_eq_none.mp
    (by rw [hknown.1]; decide), Option.not_isSome_iff_eq_none.mp (by rw [hknown.2]; decide), ?_⟩
  by_contra hparent
  rw [h.same.known] at hparent
  exact hhead (hext.linked.head_of_parent_known hext.fresh.1 hmem hparent)

/-- The block after a part of the blocks still to come, with all behind it delivered. -/
theorem Partway.orphaned (h : Partway behind bs before chain) (hext : Extension before bs final)
    (hindexed : Indexed genesis before) (order : OrphanOrder)
    (hmem : block ∈ bs) (hnew : block ∉ behind) (hhead : bs.head? ≠ some block)
    (hgap : ∀ b ∈ bs.head?, b ∉ behind) (hroom : behind.length < maxOrphanBlocks) :
    ∃ reached, Chain.connectBlock order block chain = (.ok (.orphaned block.hash), reached) ∧
      Partway (behind ++ [block]) bs before reached := by
  obtain ⟨result, reached, hconnect, taken, left, stage, hsplit, htaken, -, hto, -, hpart⟩ :=
    h.connectBlock hext hindexed order hmem hnew hgap fun _ ↦
      h.orphans_length_le.trans_lt hroom
  have hresult := connectBlock_orphaned order (h.admission_none hext hmem hnew hhead)
  rw [hconnect] at hresult
  obtain ⟨rfl, -⟩ : result = .orphaned block.hash ∧ _ := by
    simpa using Prod.mk.inj hresult
  refine ⟨reached, hconnect, ?_⟩
  cases taken with
  | nil =>
      rw [List.nil_append] at hsplit
      cases hto
      rwa [hsplit]
  | cons first taken =>
      have hfirst : bs.head? = some first := by rw [hsplit]; rfl
      rcases List.mem_append.mp (htaken first List.mem_cons_self) with hbehind | hsingle
      · exact (hgap first hfirst hbehind).elim
      · rw [List.mem_singleton.mp hsingle] at hfirst
        exact (hhead hfirst).elim

/-- The first block takes all the others along. -/
theorem Partway.caughtUp (h : Partway behind (block :: rest) before chain)
    (hext : Extension before (block :: rest) final) (hindexed : Indexed genesis before)
    (order : OrphanOrder) (hnew : block ∉ behind) (hall : ∀ b ∈ rest, b ∈ behind) :
    ∃ result reached, Chain.connectBlock order block chain = (.ok result, reached) ∧
      result.becameTip = true ∧ SameLedger final reached ∧ reached.orphans = ∅ := by
  have hgap : ∀ b ∈ (block :: rest).head?, b ∉ behind := by
    intro b hb
    obtain rfl := Option.some.inj hb
    exact hnew
  obtain ⟨result, reached, hconnect, taken, left, stage, hsplit, -, hleft, hto, hmore, hpart⟩ :=
    h.connectBlock hext hindexed order List.mem_cons_self hnew hgap fun hhead ↦ (hhead rfl).elim
  have hnone : left = [] := by
    cases left with
    | nil => rfl
    | cons b left =>
        refine (hleft b rfl ?_).elim
        have hb : b ∈ block :: rest := by
          rw [hsplit]
          exact List.mem_append_right _ List.mem_cons_self
        rcases List.mem_cons.mp hb with rfl | hb
        · exact List.mem_append_right _ (List.mem_singleton_self _)
        · exact List.mem_append_left _ (hall b hb)
  subst hnone
  cases hmore
  refine ⟨result, reached, hconnect, ?_, hpart.same, ?_⟩
  · have hknown := h.hasBlockHash hext List.mem_cons_self hnew
    rw [Chain.hasBlockHash, Bool.or_eq_false_iff] at hknown
    cases hext with
    | cons admitted tip _ =>
        have hadm := h.same.admitted admitted
          (Option.not_isSome_iff_eq_none.mp (by rw [hknown.2]; decide))
        have halone := (connectAlone_eq_place order hadm).trans
          (place_extended (tip.trans h.same.sameTree.tipHash_eq.symm))
        rw [connectBlock_result halone hconnect]
        rfl
  · apply AList.ext
    apply List.eq_nil_iff_forall_not_mem.mpr
    intro entry hentry
    have hempty := (hpart.pool _ _ (EntryMap.mem_entries_iff.mp hentry)).1
    cases hempty

end Chain

/-! ## Runs -/

section

variable [Crypto] [Features] {genesis b block : Block} {bs rest behind : List Block}
  {before chain final reached : Chain} {d e : ConnectionDirection} {x : SyncLink}

theorem Node.Owns.connectBlock {node : Node} (h : node.Owns chain) {result : ConnectResult}
    (hconnect : Chain.connectBlock (node.lock.order node.lock.locks) block chain =
      (.ok result, reached)) :
    ChainHandle.connectBlock block node = (.ok result, node.lock.setChain ⟨reached, false⟩) := by
  simp only [ChainHandle.connectBlock, h.lock.chain, Bool.false_eq_true, if_false, Node.chain,
    hconnect]

/-- A block that becomes the tip is announced once the pool is synchronised. -/
theorem handleBlock_synced {relay synced : PeerRelayState} {node next left : Node}
    {result : ConnectResult} (h : ChainHandle.connectBlock block node = (.ok result, next))
    (htip : result.becameTip = true)
    (hsync : syncMempool { relay with blockRequests := relay.blockRequests.clear block.hash } next =
      (.ok (), synced, left)) (now : ℕ) :
    handleBlock relay block now node =
      (.ok (.announce [⟨.block, block.hash⟩]), synced, left) := by
  cases result with
  | connected _ _ => simp only [handleBlock, h, hsync]
  | reorganized _ _ => simp only [handleBlock, h, hsync]
  | sideChain _ _ => cases htip
  | orphaned _ => cases htip

theorem handleBlock_unsynced {relay synced : PeerRelayState} {node next left : Node}
    {result : ConnectResult} {e : RelayError}
    (h : ChainHandle.connectBlock block node = (.ok result, next)) (htip : result.becameTip = true)
    (hsync : syncMempool { relay with blockRequests := relay.blockRequests.clear block.hash } next =
      (.error e, synced, left)) (now : ℕ) :
    handleBlock relay block now node = (.error e, synced, left) := by
  cases result with
  | connected _ _ => simp only [handleBlock, h, hsync]
  | reorganized _ _ => simp only [handleBlock, h, hsync]
  | sideChain _ _ => cases htip
  | orphaned _ => cases htip

/-- The asking side has taken the blocks of `behind`, the last of `bs` first, and is after
`b`. -/
structure SyncLink.Catching (x : SyncLink) (d : ConnectionDirection) (bs rest : List Block)
    (b : Block) (behind : List Block) (before : Chain) : Prop where
  split : bs = rest ++ b :: behind
  client : ∃ chain, (x.side d).node.Owns chain ∧ Chain.Partway behind.reverse bs before chain
  room : (x.side d).relay.blockRequests.Room rest
  server : (x.side d.opposite).node.Serving bs

/-- The messages under way. -/
def SyncLink.Holds (x : SyncLink) (d : ConnectionDirection) (mine theirs : List Message) : Prop :=
  (x.side d).inbox = mine ∧ (x.side d.opposite).inbox = theirs

/-- The asking side has the chain and the pool is empty. -/
def Node.CaughtUp (node : Node) (final : Chain) : Prop :=
  ∃ chain, node.Owns chain ∧ Chain.SameLedger final chain ∧ chain.orphans = ∅

/-- The stages, with the number of messages still to handle. -/
inductive SyncLink.Stage (d : ConnectionDirection) (bs : List Block) (before final : Chain) :
    ℕ → SyncLink → Prop
  | announced {x : SyncLink} {rest : List Block} {b : Block} (split : bs = rest ++ [b])
      (client : (x.side d).node.Owns before) (pool : before.orphans = ∅)
      (room : (x.side d).relay.blockRequests.Room bs)
      (server : (x.side d.opposite).node.Serving bs)
      (holds : x.Holds d [Message.inv [⟨.block, b.hash⟩]] []) :
      Stage d bs before final (2 * rest.length + 3) x
  | asked {x : SyncLink} {rest behind : List Block} {b : Block}
      (catching : x.Catching d bs rest b behind before)
      (holds : x.Holds d [] [Message.getdata [⟨.block, b.hash⟩]]) :
      Stage d bs before final (2 * rest.length + 2) x
  | answered {x : SyncLink} {rest behind : List Block} {b : Block}
      (catching : x.Catching d bs rest b behind before) (holds : x.Holds d [Message.block b] []) :
      Stage d bs before final (2 * rest.length + 1) x
  | done {x : SyncLink} (client : (x.side d).node.CaughtUp final) (holds : x.Holds d [] []) :
      Stage d bs before final 0 x

/-- The blocks that are missing can be connected one after the other, and the pool has room for
those that wait. -/
structure Chain.Missing (genesis : Block) (before : Chain) (bs : List Block) (final : Chain) :
    Prop where
  extension : Chain.Extension before bs final
  indexed : Chain.Indexed genesis before
  fits : bs.length ≤ maxOrphanBlocks + 1

theorem Chain.Missing.nodup (h : Chain.Missing genesis before bs final) : bs.Nodup :=
  h.extension.fresh.2.imp fun hne heq ↦ hne (congrArg Block.hash heq)

/-- The blocks before one of them have other hashes. -/
theorem Chain.Missing.distinct (h : Chain.Missing genesis before (rest ++ b :: behind) final) :
    ∀ other ∈ rest, other.hash ≠ b.hash := by
  intro other hother
  exact (List.pairwise_append.mp h.extension.fresh.2).2.2 other hother b List.mem_cons_self

namespace SyncLink

theorem step_nil {now : ℕ} (h : (x.side d).inbox = []) : x.step (d, now) = none := by
  simp only [step, h]

theorem step_reply {message : Message} {replies : List Message} {relay : PeerRelayState}
    {node : Node} {now : ℕ} (h : (x.side d).inbox = [message])
    (hhandled : handlePeerMessage (x.side d).relay message now (x.side d).node =
      (.ok (.reply replies), relay, node)) :
    x.step (d, now) = some (x.put d relay node [] replies) := by
  simp only [step, h, hhandled]

/-- A side whose turn it is takes the link to the next stage, at any time. -/
def Turn (d : ConnectionDirection) (bs : List Block) (before final : Chain) (n : ℕ)
    (x : SyncLink) : Prop :=
  ∃ e : ConnectionDirection, (x.side e.opposite).inbox = [] ∧
    ∀ now, ∃ y, x.step (e, now) = some y ∧ Stage d bs before final n y

/-- The announced block is asked for. -/
theorem turn_announced (h : Chain.Missing genesis before bs final) (hsplit : bs = rest ++ [b])
    (howns : (x.side d).node.Owns before) (hpool : before.orphans = ∅)
    (hroom : (x.side d).relay.blockRequests.Room bs)
    (hserver : (x.side d.opposite).node.Serving bs)
    (hholds : x.Holds d [Message.inv [⟨.block, b.hash⟩]] []) :
    x.Turn d bs before final (2 * rest.length + 2) := by
  refine ⟨d, hholds.2, fun now ↦ ?_⟩
  subst hsplit
  have hpart : Chain.Partway [].reverse (rest ++ [b]) before before :=
    ⟨.refl _, by simp [hpool], fun _ _ hb ↦ by cases hb⟩
  have hb : b ∈ rest ++ [b] := by simp
  have hnew := hpart.hasBlockHash h.extension hb (by simp)
  obtain ⟨asking, hhandled, hmore, -⟩ := howns.handleInv hnew hroom h.distinct now
  have hcatching : (x.put d asking (x.side d).node.lock [] [Message.getdata [⟨.block, b.hash⟩]]
      ).Catching d (rest ++ [b]) rest b [] before :=
    ⟨rfl, ⟨before, by simpa using howns.lock, hpart⟩, by simpa using hmore,
      by simpa using hserver⟩
  exact ⟨_, step_reply hholds.1 hhandled, .asked hcatching ⟨by simp, by simp [hholds.2]⟩⟩

/-- The other side sends it. -/
theorem turn_asked (hcatching : x.Catching d bs rest b behind before)
    (hholds : x.Holds d [] [Message.getdata [⟨.block, b.hash⟩]]) :
    x.Turn d bs before final (2 * rest.length + 1) := by
  refine ⟨d.opposite, by simpa using hholds.1, fun now ↦ ?_⟩
  have hb : b ∈ bs := by simp [hcatching.split]
  have hhandled : handlePeerMessage (x.side d.opposite).relay
      (Message.getdata [⟨.block, b.hash⟩]) now (x.side d.opposite).node =
        (.ok (.reply [Message.block b]), (x.side d.opposite).relay,
          (x.side d.opposite).node.lock) := by
    simp only [handlePeerMessage, Message.getdata, hcatching.server.handleGetdata hb]
  have hanswered : (x.put d.opposite (x.side d.opposite).relay (x.side d.opposite).node.lock []
      [Message.block b]).Catching d bs rest b behind before :=
    ⟨hcatching.split, by simpa using hcatching.client, by simpa using hcatching.room,
      by simpa using hcatching.server.lock⟩
  exact ⟨_, step_reply hholds.2 hhandled, .answered hanswered ⟨by simp [hholds.1], by simp⟩⟩

/-- The block waits, and its parent is asked for. -/
theorem turn_parent {parent : Block} (h : Chain.Missing genesis before bs final)
    (hcatching : x.Catching d bs (rest ++ [parent]) b behind before)
    (hholds : x.Holds d [Message.block b] []) :
    x.Turn d bs before final (2 * rest.length + 2) := by
  refine ⟨d, hholds.2, fun now ↦ ?_⟩
  obtain ⟨hsplit, ⟨chain, howns, hpart⟩, hroom, hserver⟩ := hcatching
  have hwhole : bs = rest ++ parent :: b :: behind := by simp [hsplit]
  have hlater : bs = (rest ++ [parent]) ++ b :: behind := hsplit
  have hb : b ∈ bs := by simp [hsplit]
  have hparent : parent ∈ bs := by simp [hsplit]
  have hnodup := h.nodup
  have hnew : b ∉ behind.reverse := by
    rw [hlater] at hnodup
    rw [List.mem_reverse]
    exact (List.nodup_cons.mp (List.nodup_append.mp hnodup).2.1).1
  have hparentNew : parent ∉ (behind.reverse ++ [b]) := by
    rw [hwhole] at hnodup
    have hfirst := (List.nodup_cons.mp (List.nodup_append.mp hnodup).2.1).1
    simpa [or_comm] using hfirst
  have hlink : b.header.prevBlockhash = parent.hash :=
    Chain.LinkedAbove.prev_eq (hwhole ▸ h.extension.linked)
  have hgap : ∀ first ∈ bs.head?, first ∉ behind.reverse ++ [b] := by
    intro first hfirst hmem
    rw [hlater, List.head?_append_of_ne_nil _ (by simp)] at hfirst
    rw [hlater] at hnodup
    refine (List.nodup_append.mp hnodup).2.2 first (List.mem_of_mem_head? hfirst) first ?_ rfl
    simpa [or_comm] using hmem
  have hfits : behind.reverse.length < maxOrphanBlocks := by
    have hlength := h.fits
    simp only [hwhole, List.length_append, List.length_cons] at hlength
    rw [List.length_reverse]
    omega
  obtain ⟨reached, hconnect, hreached⟩ := hpart.orphaned h.extension h.indexed
    ((x.side d).node.lock.order (x.side d).node.lock.locks) hb hnew
    (fun hhead ↦ hgap b hhead (by simp))
    (fun first hfirst hmem ↦ hgap first hfirst (by simp [hmem])) hfits
  have hconnected := howns.connectBlock hconnect
  have hdistinct := Chain.Missing.distinct (hwhole ▸ h)
  obtain ⟨asking, hrequested, hmore⟩ := (howns.lock.setChain reached).requestMissingBlock
    (hreached.hasBlockHash h.extension hparent hparentNew) hroom
    hdistinct now
  have hhandled : handlePeerMessage (x.side d).relay (Message.block b) now (x.side d).node =
      (.ok (.reply [Message.getdata [⟨.block, parent.hash⟩]]), asking,
        ((x.side d).node.lock.setChain ⟨reached, false⟩).lock) := by
    change handleBlock (x.side d).relay b now (x.side d).node = _
    simp only [handleBlock, hconnected, hlink, hrequested]
  have hasked : (x.put d asking ((x.side d).node.lock.setChain ⟨reached, false⟩).lock []
      [Message.getdata [⟨.block, parent.hash⟩]]).Catching d bs rest parent (b :: behind) before :=
    ⟨hwhole, ⟨reached, by simpa using (howns.lock.setChain reached).lock,
      by simpa using hreached⟩, by simpa using hmore, by simpa using hserver⟩
  exact ⟨_, step_reply hholds.1 hhandled, .asked hasked ⟨by simp, by simp [hholds.2]⟩⟩

/-- The first missing block connects, and all the others with it. -/
theorem turn_last (h : Chain.Missing genesis before bs final)
    (hcatching : x.Catching d bs [] b behind before) (hholds : x.Holds d [Message.block b] []) :
    x.Turn d bs before final 0 := by
  refine ⟨d, hholds.2, fun now ↦ ?_⟩
  obtain ⟨hsplit, ⟨chain, howns, hpart⟩, hroom, hserver⟩ := hcatching
  rw [List.nil_append] at hsplit
  subst hsplit
  obtain ⟨result, reached, hconnect, htip, hsame, hnone⟩ := hpart.caughtUp h.extension h.indexed
    ((x.side d).node.lock.order (x.side d).node.lock.locks)
    (by simpa using (List.nodup_cons.mp h.nodup).1) (by simp)
  have hconnected := howns.connectBlock hconnect
  let relay := { (x.side d).relay with
    blockRequests := (x.side d).relay.blockRequests.clear b.hash }
  let node := (x.side d).node.lock.setChain ⟨reached, false⟩
  have hsynced := (howns.lock.setChain reached).syncMempool relay
  cases hsync : syncMempool relay node with
  | mk outcome rest =>
    obtain ⟨synced, left⟩ := rest
    have hleft : left.Owns reached := by
      change (syncMempool relay node).2.2.Owns reached at hsynced
      rwa [hsync] at hsynced
    have hreached : left.CaughtUp final := ⟨reached, hleft, hsame, hnone⟩
    cases outcome with
    | ok _ =>
        have hhandled := handleBlock_synced hconnected htip hsync now
        refine ⟨x.put d synced left [] [], ?_, .done (by simpa using hreached) ?_⟩
        · simp only [step, hholds.1, handlePeerMessage, Message.block, hhandled]
        · exact ⟨by simp, by simp [hholds.2]⟩
    | error e =>
        have hhandled := handleBlock_unsynced hconnected htip hsync now
        refine ⟨x.close d synced left, ?_, .done (by simpa using hreached) ?_⟩
        · simp only [step, hholds.1, handlePeerMessage, Message.block, hhandled]
        · exact ⟨by simp, by simp⟩

theorem Stage.turn {n : ℕ} (h : Chain.Missing genesis before bs final)
    (hstage : Stage d bs before final (n + 1) x) : x.Turn d bs before final n := by
  generalize hrank : n + 1 = rank at hstage
  cases hstage with
  | announced split client pool room server holds =>
      obtain rfl : n = _ := Nat.succ.inj hrank
      exact turn_announced h split client pool room server holds
  | asked catching holds =>
      obtain rfl : n = _ := Nat.succ.inj hrank
      exact turn_asked catching holds
  | @answered _ rest behind b catching holds =>
      obtain rfl : n = _ := Nat.succ.inj hrank
      rcases List.eq_nil_or_concat' rest with rfl | ⟨front, parent, rfl⟩
      · exact turn_last h catching holds
      · rw [List.length_append, List.length_singleton]
        exact turn_parent h catching holds
  | done _ _ => cases hrank

/-- Every step takes the link to the next stage. -/
theorem Stage.step {n : ℕ} (h : Chain.Missing genesis before bs final)
    {action : ConnectionDirection × ℕ} {y : SyncLink}
    (hstage : Stage d bs before final (n + 1) x) (hstep : x.step action = some y) :
    Stage d bs before final n y := by
  obtain ⟨e, hidle, hturn⟩ := hstage.turn h
  obtain ⟨other, now⟩ := action
  rcases e.eq_or_eq_opposite other with rfl | rfl
  · obtain ⟨next, hnext, hreached⟩ := hturn now
    obtain rfl := Option.some.inj (hnext.symm.trans hstep)
    exact hreached
  · rw [step_nil hidle] at hstep
    cases hstep

theorem Stage.stop {action : ConnectionDirection × ℕ}
    (hstage : Stage d bs before final 0 x) : x.step action = none := by
  generalize hrank : 0 = rank at hstage
  cases hstage with
  | done _ holds =>
      obtain ⟨other, now⟩ := action
      rcases d.eq_or_eq_opposite other with rfl | rfl
      · exact step_nil holds.1
      · exact step_nil holds.2
  | _ => cases hrank

/-- A node that is told of the last of the blocks that it misses has all of them after one
announcement and one question and one answer for each block, whatever the clocks say and
whatever the other threads do to the pools of transactions. -/
theorem catches_up {inOrder : List (OrphanOrder × Block)} {y : SyncLink}
    {actions : List (ConnectionDirection × ℕ)} (hrun : Chain.Reachable genesis before)
    (hpool : before.orphans = ∅) (hlinear : Chain.ConnectsEach before inOrder final)
    (hlast : inOrder.map Prod.snd = rest ++ [b]) (hfits : inOrder.length ≤ maxOrphanBlocks + 1)
    (howns : (x.side d).node.Owns before)
    (hroom : (x.side d).relay.blockRequests.Room (rest ++ [b]))
    (hserver : (x.side d.opposite).node.Serving (rest ++ [b]))
    (hholds : x.Holds d [Message.inv [⟨.block, b.hash⟩]] [])
    (h : execute step x actions = some y) :
    actions.length ≤ 2 * inOrder.length + 1 ∧
      (actions.length < 2 * inOrder.length + 1 → ∃ e, ∀ now, ∃ z, y.step (e, now) = some z) ∧
        (actions.length = 2 * inOrder.length + 1 →
          y.Holds d [] [] ∧ ∃ chain, (y.side d).node.Owns chain ∧ chain.blocks = final.blocks ∧
            chain.utxo = final.utxo ∧ chain.known = final.known ∧
              chain.totalWork = final.totalWork ∧ chain.orphans = ∅) := by
  have hlength : inOrder.length = rest.length + 1 := by
    rw [← List.length_map (f := Prod.snd), hlast, List.length_append, List.length_singleton]
  have hindexed := hrun.coherent.indexed
  have hmissing : Chain.Missing genesis before (rest ++ [b]) final :=
    ⟨hlast ▸ hlinear.extension hindexed hpool, hindexed, by
      rwa [List.length_append, List.length_singleton, ← hlength]⟩
  have hstart : Stage d (rest ++ [b]) before final (2 * rest.length + 3) x :=
    .announced rfl howns hpool hroom hserver hholds
  obtain ⟨k, hcount, hreached⟩ := execute_ranked (I := Stage d (rest ++ [b]) before final)
    (fun n s label t hstage hstep ↦ Stage.step hmissing hstage hstep)
    (fun s label hstage ↦ hstage.stop) hstart h
  refine ⟨by omega, fun hshort ↦ ?_, fun hfull ↦ ?_⟩
  · obtain ⟨n, rfl⟩ : ∃ n, k = n + 1 := ⟨k - 1, by omega⟩
    obtain ⟨e, -, hturn⟩ := hreached.turn hmissing
    exact ⟨e, fun now ↦ (hturn now).imp fun _ hz ↦ hz.1⟩
  · obtain rfl : k = 0 := by omega
    generalize hrank : 0 = rank at hreached
    cases hreached with
    | done client holds =>
        obtain ⟨chain, hchain, hsame, hnone⟩ := client
        exact ⟨holds, chain, hchain, hsame.blocks, hsame.utxo, hsame.known, hsame.totalWork, hnone⟩
    | _ => cases hrank

end SyncLink

end

end Bitrst

namespace Bitrst.Sample

open Support

def sideGrown : Chain := (grown side).extendTip sideNext grownSideMeta easyWork

/-- One node at the genesis block, another that is two blocks ahead and has said so. -/
def behindByTwo : SyncLink where
  side d :=
    match d with
    | .outbound => ⟨.withEventCursor ⟨0⟩, alone start, [Message.inv [⟨.block, sideNext.hash⟩]]⟩
    | .inbound => ⟨.withEventCursor ⟨0⟩, alone sideGrown, []⟩

def catchingUp : List (ConnectionDirection × ℕ) :=
  [(.outbound, 0), (.inbound, 0), (.outbound, 1), (.inbound, 1), (.outbound, 2)]

theorem behindByTwo_catches_up : ∃ y, execute SyncLink.step behindByTwo catchingUp = some y ∧
    ∃ chain, (y.side .outbound).node.Owns chain ∧ chain.blocks = [genesis, side, sideNext] := by
  have hrun : (execute SyncLink.step behindByTwo catchingUp).isSome = true := by
    decide +kernel
  obtain ⟨y, hy⟩ := Option.isSome_iff_exists.mp hrun
  have hserves : Serves [side, sideNext] (alone sideGrown).shared :=
    ⟨rfl, by decide +kernel⟩
  have hroom : (PeerRelayState.withEventCursor ⟨0⟩).blockRequests.Room ([side] ++ [sideNext]) :=
    ⟨by decide +kernel, by decide +kernel⟩
  have hlinear : Chain.ConnectsEach start [(order, side), (order, sideNext)] sideGrown :=
    .cons side_connects (.cons sideNext_connects (.nil _))
  have hlast : [(order, side), (order, sideNext)].map Prod.snd = [side] ++ [sideNext] := rfl
  obtain ⟨-, -, hend⟩ := SyncLink.catches_up (x := behindByTwo) (d := .outbound) start_reachable
    rfl hlinear hlast (by decide) ⟨fun _ _ ↦ rfl, rfl⟩ hroom ⟨hserves, fun _ _ h ↦ h⟩ ⟨rfl, rfl⟩ hy
  obtain ⟨-, chain, howns, hblocks, -⟩ := hend rfl
  exact ⟨y, hy, chain, howns, hblocks⟩

end Bitrst.Sample
