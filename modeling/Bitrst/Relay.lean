import Bitrst.EventDelivery
import Bitrst.Mempool
import Bitrst.Messages

/-!
# Block and transaction relay

`relay.rs` over the handles of `chain_handle.rs` and `mempool_handle.rs`.  What
the other threads do between two locks of a call is an arbitrary function of
the shared state.  The closure of `with_chain` runs under the lock of the
chain, so that there the others only reach the mempool.  Instants and durations
are natural numbers of nanoseconds.
-/

namespace Bitrst

open Support ChainEventJournal

/-! ## Request trackers -/

def maxPendingBlockRequests : ℕ := 256

def nanosPerSecond : ℕ := 10 ^ 9

def blockRequestTtl [Features] : ℕ :=
  if Features.testShortPeriod then 30 * nanosPerSecond else 300 * nanosPerSecond

structure PendingRequest where
  requestedAt : ℕ
  deriving DecidableEq

/-- The common code of the two trackers. -/
structure RequestTracker where
  pending : EntryMap Hash256 PendingRequest
  maxPending : ℕ
  requestTtl : ℕ

namespace RequestTracker

def new (maxPending requestTtl : ℕ) : RequestTracker := ⟨∅, maxPending, requestTtl⟩

def pendingCount (tracker : RequestTracker) : ℕ := tracker.pending.entries.length

/-- The tracker with the requests that have not expired. -/
def live (tracker : RequestTracker) (now : ℕ) : RequestTracker :=
  { tracker with
    pending := tracker.pending.retain fun _ request ↦
      decide (now - request.requestedAt < tracker.requestTtl) }

def expireBefore (tracker : RequestTracker) (now : ℕ) : ℕ × RequestTracker :=
  ((tracker.live now).pendingCount, tracker.live now)

def markRequested (tracker : RequestTracker) (hash : Hash256) (now : ℕ) : Bool × RequestTracker :=
  let (_, tracker) := tracker.expireBefore now
  if (tracker.pending.lookup hash).isSome then (false, tracker)
  else if tracker.maxPending ≤ tracker.pendingCount then (false, tracker)
  else (true, { tracker with pending := tracker.pending.insert hash ⟨now⟩ })

def clear (tracker : RequestTracker) (hash : Hash256) : RequestTracker :=
  { tracker with pending := tracker.pending.erase hash }

end RequestTracker

abbrev BlockRequestTracker := RequestTracker

abbrev TxRequestTracker := RequestTracker

def BlockRequestTracker.default [Features] : BlockRequestTracker :=
  .new maxPendingBlockRequests blockRequestTtl

def TxRequestTracker.default [Features] : TxRequestTracker :=
  .new maxPendingBlockRequests blockRequestTtl

structure PeerRelayState where
  blockRequests : BlockRequestTracker
  txRequests : TxRequestTracker
  chainEvents : ChainEventCursor

def PeerRelayState.withEventCursor [Features] (cursor : ChainEventCursor) : PeerRelayState :=
  ⟨.default, .default, cursor⟩

/-! ## Handles -/

/-- A value behind a lock, which a panic of its writer poisons. -/
structure Locked (α : Type) where
  value : α
  poisoned : Bool

/-- What the handles share. -/
structure Shared where
  chain : Locked Chain
  mempool : Locked Mempool

/-- The shared state as one thread meets it.  `others` is what the other threads
do before each lock that this one takes, and `order` the iteration order of the
orphan map from then on. -/
structure Node where
  shared : Shared
  locks : ℕ
  others : ℕ → Shared → Shared
  order : ℕ → OrphanOrder

inductive ChainHandleError
  | chain (stop : Stop)
  | lockPoisoned
  | eventCursor (e : ChainEventCursorError)
  deriving DecidableEq

inductive MempoolHandleError
  | lockPoisoned
  | admission (e : MempoolError)
  | resync (e : DisconnectedBlockRecoveryError)
  deriving DecidableEq

namespace Node

/-- The state that the next lock meets. -/
def lock (node : Node) : Node :=
  { node with shared := node.others node.locks node.shared, locks := node.locks + 1 }

/-- The state that the next lock meets when the chain is locked already. -/
def lockInner (node : Node) : Node :=
  { node with
    shared := { node.shared with mempool := (node.others node.locks node.shared).mempool }
    locks := node.locks + 1 }

abbrev chain (node : Node) : Chain := node.shared.chain.value

abbrev mempool (node : Node) : Mempool := node.shared.mempool.value

def setChain (node : Node) (chain : Locked Chain) : Node :=
  { node with shared := { node.shared with chain := chain } }

def setMempool (node : Node) (mempool : Mempool) : Node :=
  { node with shared := { node.shared with mempool := ⟨mempool, false⟩ } }

end Node

def Chain.hasBlockHash (chain : Chain) (hash : Hash256) : Bool :=
  (chain.known.lookup hash).isSome || (chain.orphans.lookup hash).isSome

section

variable [Crypto]

namespace ChainHandle

/-- A read of the chain, `self.read()?`. -/
def read {α : Type} (node : Node) (f : Chain → α) : Except ChainHandleError α × Node :=
  let node := node.lock
  if node.shared.chain.poisoned then (.error .lockPoisoned, node) else (.ok (f node.chain), node)

/-- The call that panics leaves the chain as it is and the lock poisoned. -/
def connectBlock [Features] (block : Block) (node : Node) :
    Except ChainHandleError ConnectResult × Node :=
  let node := node.lock
  if node.shared.chain.poisoned then (.error .lockPoisoned, node)
  else
    match node.chain.connectBlock (node.order node.locks) block with
    | (.ok result, chain) => (.ok result, node.setChain ⟨chain, false⟩)
    | (.error stop, chain) => (.error (.chain stop), node.setChain ⟨chain, decide (stop = .panic)⟩)

def eventCursor (node : Node) : Except ChainHandleError ChainEventCursor × Node :=
  read node fun chain ↦ chain.eventJournal.eventCursor

def collectEvents (cursor : ChainEventCursor) (node : Node) :
    Except ChainHandleError (List ChainEvent) × ChainEventCursor × Node :=
  let node := node.lock
  if node.shared.chain.poisoned then (.error .lockPoisoned, cursor, node)
  else
    match node.chain.eventJournal.collectEvents cursor with
    | (.ok events, cursor) => (.ok events, cursor, node)
    | (.error e, cursor) => (.error (.eventCursor e), cursor, node)

def hasBlock (hash : Hash256) (node : Node) : Except ChainHandleError Bool × Node :=
  read node fun chain ↦ chain.hasBlockHash hash

def getBlock (hash : Hash256) (node : Node) : Except ChainHandleError (Option Block) × Node :=
  read node fun chain ↦ chain.blockByHash hash

/-- `f` runs under the lock, and what it takes is the chain of that moment. -/
def withChain {α : Type} (node : Node) (f : Chain → Node → α × Node) :
    Except ChainHandleError α × Node :=
  let node := node.lock
  if node.shared.chain.poisoned then (.error .lockPoisoned, node)
  else
    let (result, node) := f node.chain node
    (.ok result, node)

end ChainHandle

/-! Every call of these but `contains` is made under the lock of the chain. -/

namespace MempoolHandle

def contains (txid : Hash256) (node : Node) : Except MempoolHandleError Bool × Node :=
  let node := node.lock
  if node.shared.mempool.poisoned then (.error .lockPoisoned, node)
  else (.ok (node.mempool.contains txid), node)

/-- A write to the mempool, `self.write()?`. -/
def write {α : Type} (node : Node) (f : Mempool → Except MempoolHandleError α × Mempool) :
    Except MempoolHandleError α × Node :=
  let node := node.lockInner
  if node.shared.mempool.poisoned then (.error .lockPoisoned, node)
  else
    let (result, mempool) := f node.mempool
    (result, node.setMempool mempool)

def acceptTx (tx : Transaction) (chainUtxo : UtxoSet) (node : Node) :
    Except MempoolHandleError AcceptedTx × Node :=
  write node fun mempool ↦
    match mempool.acceptTx tx chainUtxo with
    | (.ok accepted, mempool) => (.ok accepted, mempool)
    | (.error e, mempool) => (.error (.admission e), mempool)

def applyChainEvents (events : List ChainEvent) (chain : Chain) (node : Node) :
    Except MempoolHandleError Unit × Node :=
  write node fun mempool ↦ (.ok (), mempool.applyChainEvents events chain)

def resyncToActiveChain (chain : Chain) (sinceEventSeq : ℕ) (node : Node) :
    Except MempoolHandleError Unit × Node :=
  write node fun mempool ↦
    match mempool.resyncToActiveChain chain sinceEventSeq with
    | (.ok (), mempool) => (.ok (), mempool)
    | (.error e, mempool) => (.error (.resync e), mempool)

def serveTransaction (txid : Hash256) (chainUtxo : UtxoSet) (node : Node) :
    Except MempoolHandleError (Option Transaction) × Node :=
  write node fun mempool ↦
    let (served, mempool) := mempool.serveTransaction txid chainUtxo
    (.ok served, mempool)

end MempoolHandle

/-! ## Messages from a peer -/

inductive RelayAction
  | none
  | reply (messages : List Message)
  | announce (items : List InventoryVector)
  deriving DecidableEq

inductive RelayError
  | chain (e : ChainHandleError)
  | mempool (e : MempoolHandleError)
  deriving DecidableEq

/-- What a handler leaves behind. -/
abbrev Handled (α : Type) := Except RelayError α × PeerRelayState × Node

def syncMempool (relay : PeerRelayState) (node : Node) : Handled Unit :=
  match ChainHandle.collectEvents relay.chainEvents node with
  | (.ok events, cursor, node) =>
      let relay := { relay with chainEvents := cursor }
      if events.isEmpty then (.ok (), relay, node)
      else
        match ChainHandle.withChain node fun active ↦
            MempoolHandle.applyChainEvents events active with
        | (.ok (.ok ()), node) => (.ok (), relay, node)
        | (.ok (.error e), node) => (.error (.mempool e), relay, node)
        | (.error e, node) => (.error (.chain e), relay, node)
  | (.error (.eventCursor _), cursor, node) =>
      let relay := { relay with chainEvents := cursor }
      let sinceSeq := relay.chainEvents.lastSeq
      match ChainHandle.eventCursor node with
      | (.error e, node) => (.error (.chain e), relay, node)
      | (.ok cursor, node) =>
          let relay := { relay with chainEvents := cursor }
          match ChainHandle.withChain node fun active ↦
              MempoolHandle.resyncToActiveChain active sinceSeq with
          | (.ok (.ok ()), node) => (.ok (), relay, node)
          | (.ok (.error e), node) => (.error (.mempool e), relay, node)
          | (.error e, node) => (.error (.chain e), relay, node)
  | (.error e, cursor, node) => (.error (.chain e), { relay with chainEvents := cursor }, node)

def handleTx (relay : PeerRelayState) (tx : Transaction) (node : Node) : Handled RelayAction :=
  let txid := tx.txid
  let relay := { relay with txRequests := relay.txRequests.clear txid }
  match ChainHandle.withChain node fun active ↦ MempoolHandle.acceptTx tx active.utxo with
  | (.ok (.ok accepted), node) => (.ok (.announce [⟨.transaction, accepted.txid⟩]), relay, node)
  | (.ok (.error (.admission _)), node) => (.ok .none, relay, node)
  | (.ok (.error e), node) => (.error (.mempool e), relay, node)
  | (.error e, node) => (.error (.chain e), relay, node)

def requestMissingBlock (relay : PeerRelayState) (hash : Hash256) (now : ℕ) (node : Node) :
    Handled RelayAction :=
  match ChainHandle.hasBlock hash node with
  | (.error e, node) => (.error (.chain e), relay, node)
  | (.ok true, node) => (.ok .none, relay, node)
  | (.ok false, node) =>
      let (marked, blockRequests) := relay.blockRequests.markRequested hash now
      let relay := { relay with blockRequests := blockRequests }
      if marked then (.ok (.reply [Message.getdata [⟨.block, hash⟩]]), relay, node)
      else (.ok .none, relay, node)

def handleBlock [Features] (relay : PeerRelayState) (block : Block) (now : ℕ) (node : Node) :
    Handled RelayAction :=
  let hash := block.hash
  let parentHash := block.header.prevBlockhash
  match ChainHandle.connectBlock block node with
  | (.ok (.connected _ _), node) | (.ok (.reorganized _ _), node) =>
      let relay := { relay with blockRequests := relay.blockRequests.clear hash }
      match syncMempool relay node with
      | (.ok (), relay, node) => (.ok (.announce [⟨.block, hash⟩]), relay, node)
      | (.error e, relay, node) => (.error e, relay, node)
  | (.ok (.orphaned _), node) => requestMissingBlock relay parentHash now node
  | (.ok (.sideChain _ _), node) => (.ok .none, relay, node)
  | (.error (.chain (.error .blockAlreadyKnown)), node) => (.ok .none, relay, node)
  | (.error e, node) =>
      (.error (.chain e),
        { relay with
          blockRequests := (relay.blockRequests.clear hash).clear parentHash }, node)

/-- The loop of `handle_inv`; the requests are those of the items before. -/
def requestUnknown (now : ℕ) : List InventoryVector → List InventoryVector → PeerRelayState →
    Node → Handled (List InventoryVector)
  | [], requests, relay, node => (.ok requests, relay, node)
  | item :: items, requests, relay, node =>
      match item.invType with
      | .block =>
          match ChainHandle.hasBlock item.hash node with
          | (.error e, node) => (.error (.chain e), relay, node)
          | (.ok true, node) => requestUnknown now items requests relay node
          | (.ok false, node) =>
              let (marked, blockRequests) := relay.blockRequests.markRequested item.hash now
              requestUnknown now items (if marked then requests ++ [item] else requests)
                { relay with blockRequests := blockRequests } node
      | .transaction =>
          match MempoolHandle.contains item.hash node with
          | (.error e, node) => (.error (.mempool e), relay, node)
          | (.ok true, node) => requestUnknown now items requests relay node
          | (.ok false, node) =>
              let (marked, txRequests) := relay.txRequests.markRequested item.hash now
              requestUnknown now items (if marked then requests ++ [item] else requests)
                { relay with txRequests := txRequests } node
      | .filteredBlock => requestUnknown now items requests relay node

def handleInv (relay : PeerRelayState) (items : List InventoryVector) (now : ℕ) (node : Node) :
    Handled RelayAction :=
  match requestUnknown now items [] relay node with
  | (.error e, relay, node) => (.error e, relay, node)
  | (.ok requests, relay, node) =>
      (.ok (if requests.isEmpty then .none else .reply [Message.getdata requests]), relay, node)

/-- The loop of `handle_getdata`. -/
def collectReplies : List InventoryVector → Node → List Message × Node
  | [], node => ([], node)
  | item :: items, node =>
      match item.invType with
      | .block =>
          let (block, node) := ChainHandle.getBlock item.hash node
          let (replies, node) := collectReplies items node
          match block with
          | .ok (some block) => (Message.block block :: replies, node)
          | _ => (replies, node)
      | .transaction =>
          let (served, node) := ChainHandle.withChain node fun active ↦
            MempoolHandle.serveTransaction item.hash active.utxo
          let (replies, node) := collectReplies items node
          match served with
          | .ok (.ok (some tx)) => (Message.tx tx :: replies, node)
          | _ => (replies, node)
      | .filteredBlock => collectReplies items node

def handleGetdata (items : List InventoryVector) (node : Node) : RelayAction × Node :=
  let (replies, node) := collectReplies items node
  (if replies.isEmpty then .none else .reply replies, node)

def handlePeerMessage [Features] (relay : PeerRelayState) (message : Message) (now : ℕ)
    (node : Node) : Handled RelayAction :=
  match message.payload with
  | .block block => handleBlock relay block now node
  | .inv items => handleInv relay items now node
  | .getData items =>
      let (action, node) := handleGetdata items node
      (.ok action, relay, node)
  | .tx tx => handleTx relay tx node
  | .version _ | .verack => (.ok .none, relay, node)

/-- The call came back, with an answer or an error. -/
def returns {α : Type} : Except RelayError α → Bool
  | .error (.chain (.chain .panic)) | .error (.chain (.chain .hang)) => false
  | _ => true

end

end Bitrst
