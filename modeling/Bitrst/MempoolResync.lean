import Bitrst.Journals
import Bitrst.Ledger
import Bitrst.MempoolSync

/-!
# Resynchronising and replaying the events

`resync_to_active_chain` removes for every active block, `apply_chain_events`
for the blocks that the events connect.  An entry that spends an unspent output
of the chain spends from an active block, and removing for all of them takes it
for a descendant of a confirmed transaction: a resynchronisation empties the
pool before it restores.  `resync_agrees_iff` says when that makes no
difference.
-/

namespace Bitrst

open Support

variable [Crypto] [Features]

/-! ## Where unspent outputs come from -/

namespace Chain

variable {genesis : Block} {chain : Chain}

/-- The chain follows a stack that stands on the empty set. -/
def Backed (chain : Chain) : Prop :=
  ∃ ledger, Follows chain ledger ∧ UndoStack.Grounded Block.patches ledger

omit [Features] in
theorem Backed.congr {chain' : Chain} (h : Backed chain) (hblocks : chain'.blocks = chain.blocks)
    (hutxo : chain'.utxo = chain.utxo) (hknown : chain'.known = chain.known) : Backed chain' := by
  obtain ⟨ledger, hfollows, hgrounded⟩ := h
  exact ⟨ledger, hfollows.congr hblocks hutxo fun _ _ ↦ by rw [hknown], hgrounded⟩

theorem connectAlone_backed (h : Indexed genesis chain) (hbacked : Backed chain)
    (order : OrphanOrder) (block : Block) : Backed (connectAlone order block chain).2 := by
  obtain ⟨ledger, hfollows, hgrounded⟩ := hbacked
  rcases connectAlone_moved h order block hfollows with ⟨moves, ledger', hmoved⟩ | ⟨-, hstill⟩
  · exact ⟨ledger', hmoved.follows, hgrounded.run hmoved.run⟩
  · exact ⟨ledger, hstill, hgrounded⟩

theorem Reachable.backed (h : Reachable genesis chain) : Backed chain :=
  (h.invariant (fun chain ↦ Coherent genesis chain ∧ Backed chain)
    (fun _ _ _ created ↦ ⟨withJournalCapacities_coherent created, _,
      (withJournalCapacities_follows created).1, UndoStack.Grounded.nil.push genesis⟩)
    (by
      rintro c _ ⟨hc, hbacked⟩ hfewer
      refine ⟨hfewer.coherent hc, ?_⟩
      obtain ⟨orphans, rfl, -⟩ := hfewer
      exact hbacked.congr rfl rfl rfl)
    (fun order _ block hc _ ↦
      ⟨connectAlone_coherent hc.1 order block, connectAlone_backed hc.1.indexed hc.2 order block⟩)
    (fun _ _ hc ↦ ⟨hc.1.congr rfl rfl rfl rfl, hc.2.congr rfl rfl rfl⟩)
    (fun _ _ hc ↦ ⟨hc.1.congr rfl rfl rfl rfl, hc.2.congr rfl rfl rfl⟩)).2

omit [Features] in
/-- Every unspent output was created by a transaction of an active block. -/
theorem Backed.created (h : Backed chain) {outpoint : OutPoint} {entry : UtxoEntry}
    (hentry : chain.utxo.lookup outpoint = some entry) :
    ∃ b ∈ chain.blocks, ∃ tx ∈ b.transactions, tx.patch.written outpoint = some entry := by
  obtain ⟨ledger, hfollows, hgrounded⟩ := h
  rw [hfollows.utxo] at hentry
  obtain ⟨b, hb, patch, hpatch, hwritten⟩ := hgrounded.written hentry
  obtain ⟨tx, htx, rfl⟩ := List.mem_map.mp hpatch
  exact ⟨b, hfollows.blocks ▸ hb, tx, htx, hwritten⟩

omit [Features] in
/-- Every unspent output is an output of a transaction of an active block. -/
theorem Backed.confirmed (h : Backed chain) {outpoint : OutPoint}
    (hunspent : (chain.utxo.lookup outpoint).isSome) :
    ∃ b ∈ chain.blocks, ∃ tx ∈ b.transactions, tx.txid = outpoint.txid := by
  obtain ⟨entry, hentry⟩ := Option.isSome_iff_exists.mp hunspent
  obtain ⟨b, hb, tx, htx, hwritten⟩ := h.created hentry
  have houtput : tx.HasOutput outpoint := Patch.written_isSome_iff.mp (by rw [hwritten]; rfl)
  exact ⟨b, hb, tx, htx, houtput.txid_eq.symm⟩

omit [Crypto] [Features] in
/-- Every active block is read by its height. -/
theorem mem_readByHeight {b : Block} (hb : b ∈ chain.blocks) :
    b ∈ (List.range (chain.height + 1)).filterMap chain.activeBlockAt := by
  obtain ⟨i, hi, hread⟩ := List.mem_iff_getElem.mp hb
  refine List.mem_filterMap.mpr ⟨i, ?_, ?_⟩
  · rw [List.mem_range, height]
    omega
  · rw [activeBlockAt, List.getElem?_eq_getElem hi, hread]

omit [Crypto] [Features] in
/-- A known block is found under its hash. -/
theorem blockByHash_known {hash : Hash256} {entry : BlockMeta}
    (h : chain.known.lookup hash = some entry) : chain.blockByHash hash = some entry.block := by
  rw [blockByHash, h]

omit [Features] in
/-- The recovered blocks are those that the disconnect events name. -/
theorem Journaled.recovered_eq (h : Journaled chain) {since : ℕ} {events : List ChainEvent}
    (hevents : chain.eventJournal.eventsAfter since = .ok events) {blocks : List Block}
    (hblocks : chain.recoveryDisconnectedBlocks since = .ok blocks) :
    blocks = Mempool.disconnectedBlocks chain events := by
  have hstored : ∀ b ∈ blocks, chain.blockByHash b.hash = some b := by
    intro b hb
    rw [(recoveryDisconnectedBlocks_ok_iff.mp hblocks).2] at hb
    obtain ⟨entry, hentry, rfl⟩ := List.mem_map.mp hb
    obtain ⟨found, hfound, hblock⟩ := h.stored entry (List.mem_of_mem_filter hentry)
    rw [blockByHash_known hfound, hblock]
  calc blocks = (blocks.map Block.hash).filterMap chain.blockByHash := by
        have hread := List.filterMap_congr (f := chain.blockByHash ∘ Block.hash) (g := some) hstored
        rw [List.filterMap_map, hread, List.filterMap_some]
    _ = Mempool.disconnectedBlocks chain events := by
        rw [h.blocksSince_hashes hevents hblocks, List.filterMap_filterMap]
        refine List.filterMap_congr fun event _ ↦ ?_
        cases event <;> rfl

end Chain

namespace Mempool

variable {genesis : Block} {chain₀ chain : Chain} {pool : Mempool}

/-! ## The pool before the restoration -/

omit [Features] in
/-- A transaction that is valid for a view spends something that is there. -/
theorem isValidForView_inputs {tx : Transaction} {view : UtxoSet}
    (h : isValidForView tx view = true) :
    tx.inputs ≠ [] ∧ ∀ input ∈ tx.inputs, (view.lookup input.outPoint).isSome := by
  unfold isValidForView at h
  simp only [Bool.and_eq_true, Bool.not_eq_true'] at h
  obtain ⟨⟨⟨⟨hstructure, hcoinbase⟩, -⟩, hvalidated⟩, -⟩ := h
  constructor
  · rintro hnil
    cases hvalid : validateTxStructure tx with
    | error e => simp [hvalid, Except.isOk, Except.toBool] at hstructure
    | ok size => exact (validateTxStructure_ok hvalid).2 hcoinbase hnil
  · cases hvalid : view.validateTransaction tx with
    | error e => simp [hvalid, Except.isOk, Except.toBool] at hvalidated
    | ok _ => exact UtxoSet.validateTransaction_inputs hcoinbase hvalid

/-- The pool after removing for blocks and revalidating. -/
def remaining (pool : Mempool) (blocks : List Block) (chainUtxo : UtxoSet) : Mempool :=
  (blocks.foldl removeForBlock pool).revalidatePool chainUtxo

omit [Features] in
/-- What remains was not affected by the blocks. -/
theorem remaining_entry (h : Sound pool) {blocks : List Block} {chainUtxo : UtxoSet}
    {txid : Hash256} {entry : MempoolEntry}
    (hentry : (pool.remaining blocks chainUtxo).entries.lookup txid = some entry) :
    pool.entries.lookup txid = some entry ∧ ¬ Affected pool blocks txid := by
  unfold remaining at hentry
  rw [foldl_removeForBlock] at hentry
  obtain ⟨⟨txids, hrevalidated⟩, -⟩ :=
    revalidatePool_spec (h.removeEntries (removedForAll blocks pool)) chainUtxo
  rw [hrevalidated] at hentry
  obtain ⟨hkept, hentry⟩ :=
    lookup_removeEntries_iff.mp (lookup_removeEntries_iff.mp hentry).2
  exact ⟨hentry, fun haffected ↦ hkept (mem_removedForAll_iff.mpr haffected)⟩

omit [Features] in
/-- Nothing remains unless some entry is not affected and valid on its own; then the pool
is as good as new. -/
theorem remaining_eq_blank (h : Sound pool) {blocks : List Block} {chainUtxo : UtxoSet}
    (hall : ∀ txid entry, pool.entries.lookup txid = some entry →
      Affected pool blocks txid ∨ isValidForView entry.tx chainUtxo = false) :
    pool.remaining blocks chainUtxo = { new pool.limits with nextSeq := pool.nextSeq } := by
  have hremoved := h.removeEntries (removedForAll blocks pool)
  obtain ⟨⟨txids, hrevalidated⟩, hvalid⟩ := revalidatePool_spec hremoved chainUtxo
  have hremaining : pool.remaining blocks chainUtxo =
      (pool.removeEntries (removedForAll blocks pool)).removeEntries txids := by
    rw [remaining, foldl_removeForBlock, hrevalidated]
  have hempty : ∀ txid, (pool.remaining blocks chainUtxo).entries.lookup txid = none := by
    by_contra hsome
    push Not at hsome
    obtain ⟨txid, hsome⟩ := hsome
    obtain ⟨entry, hentry⟩ := Option.ne_none_iff_exists'.mp hsome
    have hne : (pool.remaining blocks chainUtxo).ordered ≠ [] :=
      List.ne_nil_of_mem (mem_ordered.mpr ⟨txid, hentry⟩)
    rw [← foldl_removeForBlock] at hvalid
    obtain ⟨key, found, hfound, hvalidFound⟩ := exists_valid_of_ne_nil hvalid hne
    obtain ⟨hbefore, hunaffected⟩ := remaining_entry h hfound
    rcases hall key found hbefore with haffected | hinvalid
    · exact hunaffected haffected
    · rw [hvalidFound] at hinvalid
      cases hinvalid
  have hblank := Sound.eq_blank (hremaining ▸ hremoved.removeEntries txids) hempty
  rw [hblank, hremaining]
  simp

omit [Features] in
/-- Removing for all active blocks leaves nothing that is valid on its own. -/
theorem resync_remaining (hbacked : chain.Backed) (h : Sound pool) :
    pool.remaining ((List.range (chain.height + 1)).filterMap chain.activeBlockAt) chain.utxo =
      { new pool.limits with nextSeq := pool.nextSeq } := by
  refine remaining_eq_blank h fun txid entry hentry ↦ ?_
  cases hvalid : isValidForView entry.tx chain.utxo with
  | false => exact Or.inr rfl
  | true =>
      obtain ⟨hne, hunspent⟩ := isValidForView_inputs hvalid
      obtain ⟨input, hinput⟩ := List.exists_mem_of_ne_nil _ hne
      obtain ⟨b, hb, tx, htx, htxid⟩ := hbacked.confirmed (hunspent input hinput)
      have hparent : tx.txid = input.previousOutput := htxid
      exact Or.inl (.descends hentry hinput (hparent ▸ .confirmed (Chain.mem_readByHeight hb) htx))

/-! ## A pool that is synchronised with the chain -/

/-- The pool is synchronised with the chain: no entry is confirmed, and all are
valid, in order, on the unspent outputs. -/
structure Synchronised (pool : Mempool) (chain : Chain) : Prop where
  sound : Sound pool
  unconfirmed : ∀ txid entry, pool.entries.lookup txid = some entry →
    ∀ b ∈ chain.blocks, ∀ tx ∈ b.transactions, tx.txid ≠ txid
  valid : pool.findInvalidTxids chain.utxo = []

omit [Crypto] [Features] in
theorem mem_connectedBlocks {events : List ChainEvent} {hash : Hash256} {b : Block}
    (h : Chain.ConnectedIn events hash) (hfound : chain.blockByHash hash = some b) :
    b ∈ connectedBlocks chain events := by
  obtain ⟨height, count, hmem⟩ := h
  exact List.mem_filterMap.mpr ⟨_, hmem, hfound⟩

/-- An entry of a synchronised pool that is confirmed by an active block, or by one that was
disconnected since, is affected by a block connected since. -/
theorem Synchronised.affected_of_confirmed (h : Synchronised pool chain₀)
    (hreachable : Chain.Reachable genesis chain₀) (hrun : Chain.Continues chain₀ chain)
    {events : List ChainEvent}
    (hevents : chain.eventJournal.eventsAfter chain₀.eventJournal.latestSeq = .ok events)
    {txid : Hash256} {entry : MempoolEntry} (hentry : pool.entries.lookup txid = some entry)
    {b : Block} (hb : b ∈ chain.blocks ∨ b ∈ disconnectedBlocks chain events) {tx : Transaction}
    (htx : tx ∈ b.transactions) (htxid : tx.txid = txid) :
    Affected pool (connectedBlocks chain events) txid := by
  have hdone := hrun.reachable hreachable
  obtain ⟨recent, hpushed, hactive, hgone⟩ := hrun.accountedFor hreachable
  obtain rfl : events = recent := by
    rw [(hdone.journaled.events.eventsAfter_eq hevents).1,
      hreachable.journaled.events.latestSeq_eq, hpushed, List.drop_left]
  have hconnected : ∀ hash, Chain.ConnectedIn events hash → chain.blockByHash hash = some b →
      Affected pool (connectedBlocks chain events) txid := fun hash hconnected hfound ↦
    htxid ▸ .confirmed (mem_connectedBlocks hconnected hfound) htx
  rcases hb with hb | hb
  · rcases hactive b hb with hold | hnew
    · exact (h.unconfirmed txid entry hentry b hold tx htx htxid).elim
    · obtain ⟨found, hfound, hblock⟩ := hdone.coherent.indexed.mem_active_known hb
      exact hconnected _ hnew (by rw [Chain.blockByHash_known hfound, hblock])
  · obtain ⟨event, hevent, hfound⟩ := List.mem_filterMap.mp hb
    cases event with
    | blockDisconnected height hash =>
        rcases hgone height hash hevent with ⟨old, hold, rfl⟩ | hnew
        · have hindexed := hreachable.coherent.indexed
          obtain ⟨known₀, hknown₀, rfl⟩ := hindexed.mem_active_known hold
          obtain ⟨found, hknown, hblock, -⟩ := hrun.keepsIndex hreachable _ known₀ hknown₀
          have heq : known₀.block = b := by
            rw [← hblock]
            exact Option.some.inj ((Chain.blockByHash_known hknown).symm.trans hfound)
          exact (h.unconfirmed txid entry hentry _ hold tx (heq ▸ htx) htxid).elim
        · exact hconnected hash hnew hfound
    | _ => cases hfound

/-- An entry that is not affected and valid on its own remains. -/
theorem Synchronised.remaining_keeps (h : Synchronised pool chain₀)
    (hreachable : Chain.Reachable genesis chain₀) (hrun : Chain.Continues chain₀ chain)
    {events : List ChainEvent}
    (hevents : chain.eventJournal.eventsAfter chain₀.eventJournal.latestSeq = .ok events)
    {txid : Hash256} {entry : MempoolEntry} (hentry : pool.entries.lookup txid = some entry)
    (hunaffected : ¬ Affected pool (connectedBlocks chain events) txid)
    (hvalid : isValidForView entry.tx chain.utxo = true) :
    (pool.remaining (connectedBlocks chain events) chain.utxo).entries.lookup txid =
      some entry := by
  obtain rfl := h.sound.key txid entry hentry
  have hkept : ∀ key found,
      (pool.removeEntries (removedForAll (connectedBlocks chain events) pool)).entries.lookup key =
        some found ↔ pool.entries.lookup key = some found ∧
          ¬ Affected pool (connectedBlocks chain events) key := by
    intro key found
    rw [lookup_removeEntries_iff, mem_removedForAll_iff, and_comm]
  unfold remaining
  rw [foldl_removeForBlock]
  have hbefore := (hkept entry.tx.txid entry).mpr ⟨hentry, hunaffected⟩
  have hkeep : (fun txid ↦ txid = entry.tx.txid) entry.tx.txid := rfl
  refine revalidateLoop_keeps _ (h.sound.removeEntries _) ?_ hkeep hbefore
  rintro current hsound hsub hkeeps _ rfl
  have hcurrent := hkeeps entry.tx.txid entry rfl hbefore
  apply notMem_findInvalidLoop (ordered_nodup hsound) hvalid (fun _ _ ↦ rfl)
  intro other hother hne
  obtain ⟨key, hkey⟩ := mem_ordered.mp hother
  obtain rfl := hsound.key key other hkey
  have hdistinct : other.tx.txid ≠ entry.tx.txid := by
    intro heq
    rw [heq, hcurrent] at hkey
    exact hne (Option.some.inj hkey).symm
  refine ⟨hdistinct, fun input hinput ↦ ⟨?_, ?_⟩⟩
  · -- A recorded spend has one owner.
    intro hspend
    have hmine := (hsound.spends_iff input.outPoint _).mpr
      ⟨entry, hcurrent, List.mem_map_of_mem hinput⟩
    have htheirs := (hsound.spends_iff input.outPoint _).mpr
      ⟨other, hkey, Transaction.mem_spentOutPoints hspend⟩
    rw [hmine] at htheirs
    exact hdistinct (Option.some.inj htheirs).symm
  · -- The output is unspent, so a transaction with the id of the other entry is confirmed.
    intro hwrite
    have houtput : other.tx.HasOutput input.outPoint := hwrite
    obtain ⟨b, hb, tx, htx, htxid⟩ := (hrun.reachable hreachable).backed.confirmed
      ((isValidForView_inputs hvalid).2 input hinput)
    obtain ⟨hresident, hunaffectedOther⟩ := (hkept _ _).mp (hsub _ _ hkey)
    exact hunaffectedOther (h.affected_of_confirmed hreachable hrun hevents hresident (Or.inl hb)
      htx (htxid.trans houtput.txid_eq))

/-! ## The two ways -/

omit [Features] in
theorem applyChainEvents_eq (pool : Mempool) (events : List ChainEvent) (chain : Chain) :
    pool.applyChainEvents events chain =
      (pool.remaining (connectedBlocks chain events) chain.utxo).restoreCandidates
        (restorable (disconnectedBlocks chain events)) chain.utxo := rfl

/-- A resynchronisation and a replay of the events, below the limits, leave the
same transactions precisely when no recorded disconnection makes the recovery
refuse the mark and every entry is affected by a block connected since, or no
longer valid on its own. -/
theorem resync_agrees_iff (hreachable : Chain.Reachable genesis chain₀)
    (h : Synchronised pool chain₀) (hrun : Chain.Continues chain₀ chain)
    {events : List ChainEvent}
    (hevents : chain.eventJournal.eventsAfter chain₀.eventJournal.latestSeq = .ok events)
    (hlimits : RestoresBelowLimits (pool.remaining (connectedBlocks chain events) chain.utxo)
      (restorable (disconnectedBlocks chain events)) chain.utxo) :
    (∃ resynced,
      pool.resyncToActiveChain chain chain₀.eventJournal.latestSeq = (.ok (), resynced) ∧
        ∀ txid, resynced.getTransaction txid =
          (pool.applyChainEvents events chain).getTransaction txid) ↔
      chain.RecoversFrom chain₀.eventJournal.latestSeq ∧
        ∀ txid entry, pool.entries.lookup txid = some entry →
          Affected pool (connectedBlocks chain events) txid ∨
            isValidForView entry.tx chain.utxo = false := by
  have hdone := hrun.reachable hreachable
  have hresync : ∀ blocks,
      chain.recoveryDisconnectedBlocks chain₀.eventJournal.latestSeq = .ok blocks →
        pool.resyncToActiveChain chain chain₀.eventJournal.latestSeq = (.ok (),
          { new pool.limits with nextSeq := pool.nextSeq }.restoreCandidates
            (restorable (disconnectedBlocks chain events)) chain.utxo) := by
    intro blocks hblocks
    rw [← resync_remaining hdone.backed h.sound, ← hdone.journaled.recovered_eq hevents hblocks]
    simp only [resyncToActiveChain, hblocks, remaining]
  constructor
  · rintro ⟨resynced, hok, hsame⟩
    cases hblocks : chain.recoveryDisconnectedBlocks chain₀.eventJournal.latestSeq with
    | error e =>
        simp only [resyncToActiveChain, hblocks] at hok
        cases hok
    | ok blocks =>
        refine ⟨(Chain.recoveryDisconnectedBlocks_ok_iff.mp hblocks).1, ?_⟩
        intro txid entry hentry
        rw [hresync blocks hblocks] at hok
        obtain rfl := (Prod.mk.inj hok).2
        by_contra hstays
        push Not at hstays
        obtain ⟨hunaffected, hvalid⟩ := hstays
        have hreplayed := restoreCandidates_keeps hlimits
          (h.remaining_keeps hreachable hrun hevents hentry hunaffected (by simpa using hvalid))
        have hfound := hsame txid
        rw [applyChainEvents_eq, getTransaction, getTransaction, hreplayed] at hfound
        obtain ⟨restored, hrestored, -⟩ := Option.map_eq_some_iff.mp hfound
        rcases restoreCandidates_entry hrestored with hblank | hcandidate
        · cases hblank
        · obtain ⟨tx, htx, htxid⟩ := List.mem_map.mp hcandidate
          obtain ⟨b, hb, htx⟩ := List.mem_flatMap.mp htx
          exact hunaffected (h.affected_of_confirmed hreachable hrun hevents hentry (Or.inr hb)
            (List.mem_of_mem_drop (List.mem_of_mem_filter htx)) htxid)
  · rintro ⟨hrecovers, hall⟩
    have hblocks := Chain.recoveryDisconnectedBlocks_ok_iff.mpr ⟨hrecovers, rfl⟩
    refine ⟨_, hresync _ hblocks, fun txid ↦ ?_⟩
    rw [applyChainEvents_eq, remaining_eq_blank h.sound hall]

end Mempool

end Bitrst

namespace Bitrst.Sample

/-- A pool that holds a spend of the coinbase of the genesis block. -/
def holding : Mempool := ((Mempool.new ⟨10, 1000⟩).acceptTx (spend coinId0 []) start.utxo).2

theorem holding_synchronised : Mempool.Synchronised holding start where
  sound := (Mempool.new_sound _).acceptTx _ _
  unconfirmed := by
    intro txid entry hentry b hb tx htx
    have htxid : txid = (spend coinId0 []).txid :=
      (Mempool.acceptTx_entry hentry).resolve_left (Option.some_ne_none entry).symm
    rw [show b = genesis from List.mem_singleton.mp hb] at htx
    have hcoin : tx = coin 0 := List.mem_singleton.mp htx
    rw [htxid, hcoin]
    decide +kernel
  valid := by decide +kernel

theorem holding_limits : Mempool.RestoresBelowLimits
    (holding.remaining (Mempool.connectedBlocks start []) start.utxo)
      (Mempool.restorable (Mempool.disconnectedBlocks start [])) start.utxo := by
  unfold Mempool.RestoresBelowLimits
  decide +kernel

theorem holding_events : start.eventJournal.eventsAfter start.eventJournal.latestSeq = .ok [] := by
  decide +kernel

theorem holding_resync_agrees : (∃ resynced,
    holding.resyncToActiveChain start start.eventJournal.latestSeq = (.ok (), resynced) ∧
      ∀ txid, resynced.getTransaction txid =
        (holding.applyChainEvents [] start).getTransaction txid) ↔
    start.RecoversFrom start.eventJournal.latestSeq ∧
      ∀ txid entry, holding.entries.lookup txid = some entry →
        Mempool.Affected holding (Mempool.connectedBlocks start []) txid ∨
          isValidForView entry.tx start.utxo = false :=
  Mempool.resync_agrees_iff start_reachable holding_synchronised .refl holding_events
    holding_limits

/-- With no event to replay the transaction stays, and a resynchronisation drops it. -/
theorem resync_drops_valid : Chain.Reachable genesis start ∧
    Mempool.Synchronised holding start ∧
    start.eventJournal.eventsAfter start.eventJournal.latestSeq = .ok [] ∧
    start.recoveryDisconnectedBlocks start.eventJournal.latestSeq = .ok [] ∧
    ¬ ∃ resynced,
      holding.resyncToActiveChain start start.eventJournal.latestSeq = (.ok (), resynced) ∧
        ∀ txid, resynced.getTransaction txid =
          (holding.applyChainEvents [] start).getTransaction txid := by
  refine ⟨start_reachable, holding_synchronised, holding_events, by decide +kernel, ?_⟩
  rintro ⟨resynced, hok, hsame⟩
  have hdropped : (holding.resyncToActiveChain start
      start.eventJournal.latestSeq).2.getTransaction (spend coinId0 []).txid = none := by
    decide +kernel
  have hkept : (holding.applyChainEvents [] start).getTransaction (spend coinId0 []).txid ≠
      none := by decide +kernel
  rw [hok] at hdropped
  exact hkept ((hsame _).symm.trans hdropped)

/-- A block on the genesis block that confirms the parent. -/
def confirming : Block :=
  ⟨header genesisHash
    (Support.beVector 32 0x4963b043716005f366c611816cb57fe414a61e23e69dc9520bcd111aeaf84087)
      1001 1,
    [coin 1, parentTx]⟩

theorem confirming_opens : Opens confirming := by decide +kernel

/-- The chain on which the parent is confirmed. -/
def confirmed : Chain := grown confirming

theorem confirmed_reachable : Chain.Reachable genesis confirmed :=
  confirming_opens.reachable trivial

end Bitrst.Sample
