import Bitrst.Gossip
import Bitrst.MempoolService

/-!
# A transaction reaches the network

Every node has admitted the transactions that it was offered, never met a full
pool and would admit one more.  The node that has it announces it, and each that
admits it announces it to its other peers, until all that are connected have it.
-/

namespace Bitrst

open Support

/-! ## A node with one thread at work -/

/-- The node has this chain and this pool, and no other thread changes them. -/
structure Node.Still (node : Node) (chain : Chain) (pool : Mempool) : Prop where
  alone : ∀ k s, node.others k s = s
  shared : node.shared = ⟨⟨chain, false⟩, ⟨pool, false⟩⟩

namespace Node.Still

variable {node : Node} {chain : Chain} {pool : Mempool}

theorem lock (h : node.Still chain pool) : node.lock.Still chain pool :=
  ⟨h.alone, (h.alone _ _).trans h.shared⟩

theorem lockInner (h : node.Still chain pool) : node.lockInner.Still chain pool := by
  refine ⟨h.alone, ?_⟩
  simp only [Node.lockInner, h.alone, h.shared]

theorem setMempool (h : node.Still chain pool) (next : Mempool) :
    (node.setMempool next).Still chain next := by
  refine ⟨h.alone, ?_⟩
  simp only [Node.setMempool, h.shared]

theorem contains (h : node.Still chain pool) (txid : Hash256) :
    MempoolHandle.contains txid node = (.ok (pool.contains txid), node.lock) := by
  simp only [MempoolHandle.contains, h.lock.shared, Bool.false_eq_true, if_false, Node.mempool]

variable [Crypto] {tx : Transaction} {next : Mempool}

/-- An offer to the pool under the lock of the chain. -/
theorem acceptTx (h : node.Still chain pool) {accepted : AcceptedTx}
    (haccepted : pool.acceptTx tx chain.utxo = (.ok accepted, next)) :
    (ChainHandle.withChain node fun active ↦ MempoolHandle.acceptTx tx active.utxo) =
      (.ok (.ok accepted), node.lock.lockInner.setMempool next) := by
  simp only [ChainHandle.withChain, MempoolHandle.acceptTx, MempoolHandle.write, h.lock.shared,
    h.lock.lockInner.shared, Bool.false_eq_true, if_false, Node.chain, Node.mempool, haccepted]

theorem refuseTx (h : node.Still chain pool) {e : MempoolError}
    (hrefused : pool.acceptTx tx chain.utxo = (.error e, next)) :
    (ChainHandle.withChain node fun active ↦ MempoolHandle.acceptTx tx active.utxo) =
      (.ok (.error (.admission e)), node.lock.lockInner.setMempool next) := by
  simp only [ChainHandle.withChain, MempoolHandle.acceptTx, MempoolHandle.write, h.lock.shared,
    h.lock.lockInner.shared, Bool.false_eq_true, if_false, Node.chain, Node.mempool, hrefused]

theorem serveTransaction (h : node.Still chain pool) {txid : Hash256}
    (hserved : pool.serveTransaction txid chain.utxo = (some tx, next)) :
    (ChainHandle.withChain node fun active ↦
        MempoolHandle.serveTransaction txid active.utxo) =
      (.ok (.ok (some tx)), node.lock.lockInner.setMempool next) := by
  simp only [ChainHandle.withChain, MempoolHandle.serveTransaction, MempoolHandle.write,
    h.lock.shared, h.lock.lockInner.shared, Bool.false_eq_true, if_false, Node.chain, Node.mempool,
    hserved]

end Node.Still

/-! ## A transaction that a pool admits -/

section

variable [Crypto] {tx : Transaction} {chainUtxo : UtxoSet} {offered : List Transaction}

/-- What becomes of the pool with one more transaction. -/
structure Mempool.Takes (tx : Transaction) (chainUtxo : UtxoSet) (before after : Mempool) :
    Prop where
  new : before.contains tx.txid = false
  accepts : ∃ accepted, before.acceptTx tx chainUtxo = (.ok accepted, after) ∧
    accepted.txid = tx.txid
  held : after.contains tx.txid = true
  serves : after.serveTransaction tx.txid chainUtxo = (some tx, after)
  refuses : ∃ e, after.acceptTx tx chainUtxo = (.error e, after)

/-- What is served was found. -/
theorem Mempool.Takes.getTransaction {before after : Mempool}
    (h : Takes tx chainUtxo before after) : after.getTransaction tx.txid = some tx := by
  have hserves := h.serves
  rw [serveTransaction] at hserves
  split at hserves
  · cases hserves
  · rename_i found hfound
    split at hserves
    · rw [hfound, (Prod.mk.inj hserves).1]
    · cases hserves

theorem Mempool.takes {limits : MempoolLimits} {before after : Mempool}
    (hbefore : before = (new limits).acceptAll chainUtxo offered)
    (hlimits : NeverFull limits chainUtxo (offered ++ [tx]))
    (hnew : ∀ t ∈ offered ++ [tx], ∀ outpoint, t.HasOutput outpoint →
      chainUtxo.lookup outpoint = none) {accepted : AcceptedTx}
    (haccepted : before.acceptTx tx chainUtxo = (.ok accepted, after)) :
    Takes tx chainUtxo before after := by
  have hafter : after = (new limits).acceptAll chainUtxo (offered ++ [tx]) := by
    rw [acceptAll, List.foldl_append, List.foldl_cons, List.foldl_nil, ← acceptAll, ← hbefore,
      haccepted]
  have hfed : Fed chainUtxo (offered ++ [tx]) after := hafter ▸ acceptAll_fed hlimits
  have hroom : ¬ before.wouldExceedLimits tx.serializedSize := by
    have hlast := hlimits offered.length (by simp)
    rwa [List.take_left, List.getElem_concat_length rfl, ← hbefore] at hlast
  rcases @acceptTx_offer _ _ chainUtxo _ hroom with ⟨e, -, heq⟩ | ⟨fee, candidate, hvalid, heq⟩
  · rw [heq] at haccepted
    cases haccepted
  · rw [heq] at haccepted
    obtain ⟨hresult, hinserted⟩ := Prod.mk.inj haccepted
    have hcandidate := validateCandidate_ok hvalid
    have hentry : after.entries.lookup tx.txid = some candidate := by
      rw [← hinserted]
      exact AList.lookup_insert _
    have htx : after.getTransaction tx.txid = some tx := by
      rw [getTransaction, hentry]
      exact congrArg some hcandidate.tx_eq
    refine ⟨?_, ⟨accepted, by rw [heq, hresult, hinserted], ?_⟩, ?_, ?_, ?_⟩
    · rw [contains, hcandidate.fresh]
      rfl
    · rw [← Except.ok.inj hresult]
    · rw [contains, hentry]
      rfl
    · have hserved := hfed.isValidTx hnew (hfed.sound.getTransaction_iff.mp htx).1
      simp only [serveTransaction, htx, hserved, if_true]
    · have hrefused : ¬ ∃ found, after.validateCandidate tx chainUtxo = .ok found := by
        intro hfound
        have hnone := (validateCandidate_ok_iff.mp hfound).1
        rw [hentry] at hnone
        cases hnone
      obtain ⟨e, he⟩ := validateCandidate_error_iff.mpr hrefused
      exact ⟨e, by rw [acceptTx, he]⟩

/-! ## The rumour -/

/-- The tracker has room for a request of this hash. -/
def RequestTracker.Open (tracker : RequestTracker) (hash : Hash256) : Prop :=
  tracker.pending.lookup hash = none ∧ tracker.pendingCount < tracker.maxPending

omit [Crypto] in
theorem RequestTracker.Open.free {tracker : RequestTracker} {hash : Hash256}
    (h : tracker.Open hash) (now : ℕ) : tracker.Free hash now := by
  refine ⟨?_, (RequestTracker.live_pendingCount_le tracker now).trans_lt h.2⟩
  rw [Option.eq_none_iff_forall_ne_some]
  intro request hrequest
  have hold := (RequestTracker.live_lookup.mp hrequest).1
  rw [h.1] at hold
  cases hold

variable [Features] {V : Type} {chain : V → Chain} {before after : V → Mempool}

/-- The transaction as something that the nodes pass on. -/
def transactionRumour (tx : Transaction) (chain : V → Chain) (before after : V → Mempool)
    (h : ∀ v, Mempool.Takes tx (chain v).utxo (before v) (after v)) : Rumour V where
  item := ⟨.transaction, tx.txid⟩
  data := Message.tx tx
  Unaware v node := node.Still (chain v) (before v)
  Aware v node := node.Still (chain v) (after v)
  Fresh _ relay := relay.txRequests.Open tx.txid
  Waiting _ _ := True
  relayed := .inr rfl
  asks {v relay node} now hnode hfresh := by
    have hmarked := RequestTracker.markRequested_free (hfresh.free now)
    refine ⟨{ relay with txRequests := (relay.txRequests.markRequested tx.txid now).2 },
      node.lock, ?_, hnode.lock, trivial⟩
    simp only [handlePeerMessage, Message.inv, handleInv, requestUnknown, hnode.contains,
      (h v).new, hmarked, if_true, List.nil_append, List.isEmpty_cons, Bool.false_eq_true, if_false]
  ignores {v relay node} now hnode := by
    refine ⟨relay, node.lock, ?_, hnode.lock⟩
    simp only [handlePeerMessage, Message.inv, handleInv, requestUnknown, hnode.contains,
      (h v).held, List.isEmpty_nil, if_true]
  sends {v relay node} now hnode := by
    refine ⟨relay, _, ?_, hnode.lock.lockInner.setMempool (after v)⟩
    simp only [handlePeerMessage, Message.getdata, handleGetdata, collectReplies,
      hnode.serveTransaction (h v).serves, List.isEmpty_cons, Bool.false_eq_true, if_false]
  takes {v relay node} now hnode _ := by
    obtain ⟨accepted, haccepted, htxid⟩ := (h v).accepts
    refine ⟨{ relay with txRequests := relay.txRequests.clear tx.txid }, _, ?_,
      hnode.lock.lockInner.setMempool (after v)⟩
    simp only [handlePeerMessage, Message.tx, handleTx, hnode.acceptTx haccepted, htxid]
  drops {v relay node} now hnode := by
    obtain ⟨e, he⟩ := (h v).refuses
    refine ⟨{ relay with txRequests := relay.txRequests.clear tx.txid }, _, ?_,
      hnode.lock.lockInner.setMempool (after v)⟩
    simp only [handlePeerMessage, Message.tx, handleTx, hnode.refuseTx he]

/-- A transaction that every node admits, and that one of them announces, reaches all that are
connected with it. -/
theorem GossipNet.transaction_reaches_all [DecidableEq V] [Fintype V] {x y : GossipNet V}
    {source : V} {actions : List (GossipAction V)} {limits : V → MempoolLimits}
    {offered : V → List Transaction}
    (hbefore : ∀ v, before v = (Mempool.new (limits v)).acceptAll (chain v).utxo (offered v))
    (haccepts : ∀ v, ∃ accepted,
      (before v).acceptTx tx (chain v).utxo = (.ok accepted, after v))
    (hlimits : ∀ v, Mempool.NeverFull (limits v) (chain v).utxo (offered v ++ [tx]))
    (hnew : ∀ v, ∀ t ∈ offered v ++ [tx], ∀ outpoint, t.HasOutput outpoint →
      (chain v).utxo.lookup outpoint = none)
    (hloop : ∀ v, (v, v) ∉ x.links) (hsource : (x.node source).Still (chain source) (after source))
    (hothers : ∀ v, v ≠ source → (x.node v).Still (chain v) (before v) ∧ ∀ u, (u, v) ∈ x.links →
      (x.relay v u).txRequests.Open tx.txid)
    (hevents : ∀ v, x.events v = []) (hwire : ∀ u v, x.wire u v = [])
    (hcommands : ∀ u v, x.commands u v =
      if u = source ∧ (u, v) ∈ x.links then [Message.inv [⟨.transaction, tx.txid⟩]] else [])
    (h : execute GossipNet.step x actions = some y) :
    actions.length ≤ Fintype.card V + 4 * x.links.card ∧ y.links = x.links ∧ y.HasRoom ∧
      (∀ v, (y.node v).Still (chain v) (before v) ∨ (y.node v).Still (chain v) (after v)) ∧
        ((∀ action, y.step action = none) →
          ∀ v, Relation.ReflTransGen (fun a b ↦ (a, b) ∈ x.links) source v →
            (y.node v).Still (chain v) (after v) ∧
              (y.node v).mempool.getTransaction tx.txid = some tx) := by
  have htakes : ∀ v, Mempool.Takes tx (chain v).utxo (before v) (after v) := by
    intro v
    obtain ⟨accepted, haccepted⟩ := haccepts v
    exact Mempool.takes (hbefore v) (hlimits v) (hnew v) haccepted
  have hstart : (transactionRumour tx chain before after htakes).Starts x.links source x :=
    ⟨rfl, hsource, fun v hv ↦ (hothers v hv).1, fun u v hv hlink ↦ (hothers v hv).2 u hlink,
      hevents, hcommands, hwire⟩
  obtain ⟨hlength, hlinks, hroom, hnodes, hquiet⟩ := hstart.floods hloop h
  refine ⟨hlength, hlinks, hroom, hnodes, fun hstop v hreach ↦ ?_⟩
  have hstill : (y.node v).Still (chain v) (after v) := hquiet hstop v hreach
  refine ⟨hstill, ?_⟩
  rw [Node.mempool, hstill.shared]
  exact (htakes v).getTransaction

end

end Bitrst

namespace Bitrst.Sample

open Support

def emptyPool : Mempool := .new ⟨10, 1000⟩

def parentPool : Mempool := (emptyPool.acceptTx parentTx start.utxo).2

def rowPools : GossipNet (Fin 3) where
  links := row
  node v := if v = rowEnd then (alone start).setMempool parentPool else alone start
  relay _ _ := .withEventCursor ⟨0⟩
  events _ := []
  commands u v :=
    if u = rowEnd ∧ (u, v) ∈ row then [Message.inv [⟨.transaction, parentTx.txid⟩]] else []
  wire _ _ := []

theorem rowPools_run : (execute GossipNet.step rowPools alongRow).map silent = some true ∧
    (emptyPool.acceptTx parentTx start.utxo).1.isOk = true ∧
    Mempool.NeverFull ⟨10, 1000⟩ start.utxo ([] ++ [parentTx]) := by
  decide +kernel

theorem parent_reaches_row : ∃ y, execute GossipNet.step rowPools alongRow = some y ∧
    ∀ v, (y.node v).mempool.getTransaction parentTx.txid = some parentTx := by
  obtain ⟨hrun, haccepted, hlimits⟩ := rowPools_run
  obtain ⟨y, hy, hsilent⟩ := Option.map_eq_some_iff.mp hrun
  have haccepts : ∀ _ : Fin 3, ∃ accepted,
      emptyPool.acceptTx parentTx start.utxo = (.ok accepted, parentPool) := by
    intro _
    cases hresult : emptyPool.acceptTx parentTx start.utxo with
    | mk result pool =>
      rw [hresult] at haccepted
      cases result with
      | error e => cases haccepted
      | ok accepted => exact ⟨accepted, by rw [parentPool, hresult]⟩
  have hnew : ∀ t ∈ [] ++ [parentTx], ∀ outpoint, t.HasOutput outpoint →
      start.utxo.lookup outpoint = none := fun t ht ↦
    family_new t (List.mem_cons.mpr (.inl (List.mem_singleton.mp ht)))
  have hsource : (rowPools.node rowEnd).Still start parentPool := ⟨fun _ _ ↦ rfl, rfl⟩
  have hothers : ∀ v : Fin 3, v ≠ rowEnd → (rowPools.node v).Still start emptyPool ∧
      ∀ u, (u, v) ∈ rowPools.links → (rowPools.relay v u).txRequests.Open parentTx.txid := by
    intro v hv
    have hnode : rowPools.node v = alone start := if_neg hv
    have hroom : (PeerRelayState.withEventCursor ⟨0⟩).txRequests.Open parentTx.txid :=
      ⟨rfl, by decide⟩
    exact ⟨hnode ▸ ⟨fun _ _ ↦ rfl, rfl⟩, fun _ _ ↦ hroom⟩
  obtain ⟨-, -, -, -, hreached⟩ := GossipNet.transaction_reaches_all (fun _ ↦ rfl) haccepts
    (fun _ ↦ hlimits) (fun _ ↦ hnew) (by decide) hsource hothers (fun _ ↦ rfl) (fun _ _ ↦ rfl)
    (fun _ _ ↦ rfl) hy
  exact ⟨y, hy, fun v ↦ (hreached (silent_stops hsilent) v (row_connected v)).2⟩

end Bitrst.Sample
