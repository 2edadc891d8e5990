import Bitrst.Journals
import Bitrst.WalletBatch

/-!
# The wallet follows the chain

A run of a chain with a wallet that takes the events now and then and applies
them.  Between two batches the wallet tracks the stack that it had caught up
with, and the events it has not taken yet announce the moves from there to the
stack that the chain follows.
-/

namespace Bitrst

open Support

variable [Crypto] [Features]

namespace Wallet

variable {genesis : Block} {chain : Chain} {wallet : Wallet} {ledger ledger' : Ledger}

/-! ## Runs of a chain with a wallet -/

/-- The wallet that watches the given hashes from the start. -/
def watching (hashes : List Hash160) : Wallet := hashes.foldl watchAddress new

omit [Crypto] [Features] in
theorem watching_eq (hashes : List Hash160) :
    watching hashes = { new with watched := (watching hashes).watched } := by
  have hfold : ∀ (hashes : List Hash160) (wallet : Wallet), hashes.foldl watchAddress wallet =
      { wallet with watched := (hashes.foldl watchAddress wallet).watched } := by
    intro hashes
    induction hashes with
    | nil => exact fun _ ↦ rfl
    | cons pubkeyHash rest ih => exact fun wallet ↦ ih (wallet.watchAddress pubkeyHash)
  exact hfold hashes new

/-- Runs of a chain in which no block is refused, with a wallet that takes the
events now and then and applies them, each batch meeting the condition. -/
inductive SyncRun (cond : Chain → List ChainEvent → Wallet → Prop) (genesis : Block)
    (hashes : List Hash160) : Chain → Wallet → Prop
  | start {networkTime : UInt32} {capacity : ℕ} {chain : Chain}
      (created : Chain.withJournalCapacities genesis networkTime capacity = .ok chain) :
      SyncRun cond genesis hashes chain (watching hashes)
  | connect {chain : Chain} {wallet : Wallet} (order : OrphanOrder) (block : Block)
      {result : ConnectResult} (run : SyncRun cond genesis hashes chain wallet)
      (connected : (Chain.connectBlock order block chain).1 = .ok result) :
      SyncRun cond genesis hashes (Chain.connectBlock order block chain).2 wallet
  | setTime {chain : Chain} {wallet : Wallet} (networkTime : UInt32)
      (run : SyncRun cond genesis hashes chain wallet) :
      SyncRun cond genesis hashes (Chain.setNetworkTime networkTime chain).2 wallet
  | sync {chain : Chain} {wallet : Wallet} {events : List ChainEvent}
      (run : SyncRun cond genesis hashes chain wallet) (taken : chain.takeEvents.1 = .ok events)
      (meets : cond chain.takeEvents.2 events wallet) :
      SyncRun cond genesis hashes chain.takeEvents.2
        (Wallet.applyEvents chain.takeEvents.2 events wallet).2

theorem SyncRun.reachable {cond : Chain → List ChainEvent → Wallet → Prop} {hashes : List Hash160}
    (h : SyncRun cond genesis hashes chain wallet) : Chain.Reachable genesis chain := by
  induction h with
  | start created => exact .start created
  | connect order block _ connected ih =>
      refine .connect order block ih ?_ (by simp)
      rw [Returned, connected]
      simp
  | setTime networkTime _ ih => exact .setTime networkTime ih
  | sync _ _ _ ih => exact .takeEvents ih

/-! ## The wallet between two batches -/

omit [Features] in
theorem applyEvents_watched (events : List ChainEvent) (wallet : Wallet) :
    (applyEvents chain events wallet).2.watched = wallet.watched := by
  induction events generalizing wallet with
  | nil => rfl
  | cons event rest ih =>
      cases event with
      | blockConnected height hash count =>
          rw [applyEvents]
          split
          · rfl
          · rw [ih, connectBlock_eq]
      | blockDisconnected height hash =>
          rw [applyEvents, ih]
          unfold disconnectBlock
          split <;> rfl
      | chainReorg depth oldTip newTip => exact ih wallet
      | orphanAdded added size => exact ih wallet
      | orphanEvicted evicted reason => exact ih wallet

omit [Crypto] [Features] in
theorem watching_watched (hashes : List Hash160) :
    (watching hashes).watched = hashes.toFinset := by
  have hfold : ∀ (hashes : List Hash160) (wallet : Wallet),
      (hashes.foldl watchAddress wallet).watched = wallet.watched ∪ hashes.toFinset := by
    intro hashes
    induction hashes with
    | nil => simp
    | cons pubkeyHash rest ih =>
        intro wallet
        rw [List.foldl_cons, ih, watchAddress, List.toFinset_cons, Finset.insert_union,
          Finset.union_insert]
  rw [watching, hfold]
  exact Finset.empty_union _

/-- The wallet tracks a stack from which the events it has not taken yet lead to
the stack that the chain follows. -/
structure InStep (hashes : List Hash160) (chain : Chain) (wallet : Wallet)
    (moves : List (Move Block)) (behind ledger : Ledger) : Prop where
  tracks : Tracks wallet behind
  run : UndoStack.Run Block.patches behind moves ledger
  follows : Chain.Follows chain ledger
  validated : ledger.Validated
  events : (chain.eventJournal.pushed.drop chain.eventJournal.walletHighWater).filterMap
    ChainEvent.move? = moves.map (Move.map Block.hash)
  pushes : Chain.PushesIndexed chain moves
  frames : FramesIndexed chain behind
  mark_le : chain.eventJournal.walletHighWater ≤ chain.eventJournal.pushed.length
  watched : wallet.watched = hashes.toFinset

theorem start_inStep {hashes : List Hash160} {networkTime : UInt32} {capacity : ℕ}
    (created : Chain.withJournalCapacities genesis networkTime capacity = .ok chain) :
    InStep hashes chain (watching hashes) [.push 0 genesis] ⟨[], ∅⟩
      (Chain.genesisLedger genesis) := by
  obtain ⟨hfollows, hannounced⟩ := Chain.withJournalCapacities_follows created
  have hindexed := (Chain.withJournalCapacities_coherent created).indexed
  have hchecked := Chain.withJournalCapacities_checked created
  obtain ⟨work, -, rfl⟩ := Chain.withJournalCapacities_spec created
  have hnone : Ledger.Validated ⟨[], ∅⟩ := fun _ hframe ↦ nomatch hframe
  refine ⟨?_, .push genesis (.nil _), hfollows, ?_, hannounced,
    hindexed.pushesIndexed (List.nil_append _).symm, fun i frame hi ↦ by simp at hi,
    Nat.zero_le _, watching_watched hashes⟩
  · rw [watching_eq]
    refine ⟨fun _ ↦ rfl, ?_, by simp, ?_, .nil, hnone⟩
    · intro outpoint utxo hutxo
      cases hutxo
    · intro hash undo hundo
      cases hundo
  · exact hnone.push (Chain.validateBlockForParent_ok_iff.mp hchecked.2).2

omit [Features] in
/-- More moves of the chain are announced by more events. -/
theorem InStep.moved {hashes : List Hash160} {moves moves' : List (Move Block)} {behind : Ledger}
    (h : InStep hashes chain wallet moves behind ledger) {chain' : Chain}
    (hmoved : Chain.Moved chain chain' ledger ledger' moves')
    (hpushed : chain.eventJournal.pushed <+: chain'.eventJournal.pushed)
    (hmark : chain'.eventJournal.walletHighWater = chain.eventJournal.walletHighWater) :
    InStep hashes chain' wallet (moves ++ moves') behind ledger' where
  tracks := h.tracks
  run := h.run.append hmoved.run
  follows := hmoved.follows
  validated := hmoved.validated h.validated
  events := by
    obtain ⟨more, hmore⟩ := hpushed
    have hannounced := hmoved.announced
    unfold Chain.announced at hannounced
    rw [← hmore, List.filterMap_append] at hannounced
    rw [hmark, ← hmore, List.drop_append_of_le_length h.mark_le, List.filterMap_append, h.events,
      List.append_cancel_left hannounced, List.map_append]
  pushes := by
    intro depth item hmem
    rcases List.mem_append.mp hmem with hold | hnew
    · exact h.pushes.keep hmoved.stable depth item hold
    · exact hmoved.indexed depth item hnew
  frames := by
    intro i frame hi
    obtain ⟨entry, hentry, hblock, hheight⟩ := h.frames i frame hi
    obtain ⟨entry', hentry', hblock', hheight'⟩ := hmoved.stable _ entry hentry
    exact ⟨entry', hentry', hblock'.trans hblock, hheight'.trans hheight⟩
  mark_le := by
    rw [hmark]
    exact h.mark_le.trans hpushed.length_le
  watched := h.watched

theorem mark_kept (mark : ℕ) : Chain.KeptByUpdates genesis fun chain ↦
    chain.eventJournal.walletHighWater = mark where
  push _ _ _ _ _ _ hc := hc
  pop _ _ _ _ _ _ hc := hc
  store _ _ _ _ _ hc := hc
  restore _ _ _ _ hfailed := hfailed
  event _ _ _ hc := hc
  same _ _ hsame hc := by rwa [hsame.events]

/-- Taking the events hands out those after the mark, and nothing is left to take. -/
theorem takeEvents_eq (h : Chain.Reachable genesis chain) {events : List ChainEvent}
    (hmark : chain.eventJournal.walletHighWater ≤ chain.eventJournal.pushed.length)
    (taken : chain.takeEvents.1 = .ok events) :
    events = chain.eventJournal.pushed.drop chain.eventJournal.walletHighWater ∧
      chain.takeEvents.2 = chain.withMark chain.eventJournal.pushed.length := by
  have htake : chain.eventJournal.takeEvents = (.ok events, chain.takeEvents.2.eventJournal) := by
    rw [← taken]
    rfl
  obtain ⟨hevents, hjournal⟩ := h.journaled.events.takeEvents_eq htake hmark
  refine ⟨hevents, ?_⟩
  have heq : chain.takeEvents.2 = { chain with eventJournal := chain.takeEvents.2.eventJournal } :=
    rfl
  rw [heq, hjournal]
  rfl

/-- Applying the batch, the wallet catches up with the chain. -/
theorem InStep.sync {hashes : List Hash160} {moves : List (Move Block)} {behind : Ledger}
    (h : InStep hashes chain wallet moves behind ledger)
    (hreachable : Chain.Reachable genesis chain) {events : List ChainEvent}
    (taken : chain.takeEvents.1 = .ok events)
    (ok : BatchOk chain.takeEvents.2 events wallet) :
    (applyEvents chain.takeEvents.2 events wallet).1 = .ok () ∧
      InStep hashes chain.takeEvents.2 (applyEvents chain.takeEvents.2 events wallet).2 []
        ledger ledger := by
  obtain ⟨hevents, htaken⟩ := takeEvents_eq hreachable h.mark_le taken
  have hcoherent := Chain.ReachableWith.coherent hreachable
  have hlimits := hreachable.withinLimits
  have hunderWay : UnderWay chain.takeEvents.2 wallet behind := by
    apply h.tracks.underWay
    rw [htaken]
    exact h.frames
  have hannounces : Announces chain.takeEvents.2 events moves behind ledger := by
    rw [htaken]
    exact ⟨h.run, hevents ▸ h.events, h.pushes⟩
  have hindexed : Chain.Indexed genesis chain.takeEvents.2 := by
    rw [htaken]
    exact hcoherent.indexed.congr rfl rfl rfl
  have hblocks : ledger.items = chain.takeEvents.2.blocks := by
    rw [htaken]
    exact h.follows.blocks.symm
  obtain ⟨hresult, harrived⟩ := hunderWay.applyEvents hindexed (by rwa [htaken]) hannounces ok
  refine ⟨hresult, harrived.tracks hblocks h.validated, .nil ledger, ?_, h.validated, ?_, ?_, ?_,
    ?_, ?_⟩
  · rw [htaken]
    exact h.follows.congr rfl rfl fun _ _ ↦ rfl
  · rw [htaken]
    change (chain.eventJournal.pushed.drop chain.eventJournal.pushed.length).filterMap _ = _
    rw [List.drop_length]
    rfl
  · simp [Chain.PushesIndexed]
  · rw [htaken]
    exact h.frames.run h.run h.pushes
  · rw [htaken]
    exact Nat.le_refl _
  · rw [applyEvents_watched, h.watched]

theorem SyncRun.inStep {hashes : List Hash160} (h : SyncRun BatchOk genesis hashes chain wallet) :
    ∃ moves behind ledger, InStep hashes chain wallet moves behind ledger := by
  induction h with
  | start created => exact ⟨_, _, _, start_inStep created⟩
  | @connect chain wallet order block result run connected ih =>
      obtain ⟨moves, behind, ledger, hstep⟩ := ih
      have hcoherent := Chain.ReachableWith.coherent run.reachable
      obtain ⟨moves', ledger', hmoved⟩ := Chain.connectBlock_moved hcoherent order block connected
        hstep.follows
      have hpushed := ((Chain.KeptByUpdates.pushed_extends chain).connectBlock hcoherent order block
        (List.prefix_refl _)).2
      have hmark := ((mark_kept chain.eventJournal.walletHighWater).connectBlock hcoherent order
        block rfl).2
      exact ⟨_, _, _, hstep.moved hmoved hpushed hmark⟩
  | @setTime chain wallet networkTime run ih =>
      obtain ⟨moves, behind, ledger, hstep⟩ := ih
      unfold Chain.setNetworkTime
      split
      · exact ⟨_, _, _, hstep⟩
      · exact ⟨_, _, _, hstep.tracks, hstep.run, hstep.follows.congr rfl rfl fun _ _ ↦ rfl,
          hstep.validated, hstep.events, hstep.pushes, hstep.frames, hstep.mark_le, hstep.watched⟩
  | @sync chain wallet events run taken ok ih =>
      obtain ⟨moves, behind, ledger, hstep⟩ := ih
      exact ⟨_, _, _, (hstep.sync run.reachable taken ok).2⟩

/-- Nothing is unspent under the outpoint that coinbases name. -/
theorem ne_coinbase_of_unspent (h : Chain.Reachable genesis chain) {outpoint : OutPoint}
    {entry : UtxoEntry} (hentry : chain.utxo.lookup outpoint = some entry) :
    outpoint ≠ coinbaseOutPoint := by
  obtain ⟨tx, ⟨block, hblock, htx⟩, houtput⟩ := h.createdBy outpoint entry hentry
  obtain ⟨i, hi⟩ := List.mem_iff_getElem?.mp hblock
  obtain ⟨known, hknown, rfl, -⟩ :=
    (Chain.ReachableWith.coherent h).indexed.active_known i block hi
  exact ne_coinbase_of_outputAt h.withinLimits ⟨_, known, hknown, htx⟩ houtput

/-- With no move outstanding the wallet holds exactly the unspent outputs that pay a watched
hash. -/
theorem InStep.lookup_utxos {hashes : List Hash160} {behind : Ledger}
    (h : InStep hashes chain wallet [] behind ledger) (hreachable : Chain.Reachable genesis chain)
    (outpoint : OutPoint) :
    wallet.utxos.lookup outpoint =
      (chain.utxo.lookup outpoint).bind (watchedEntry hashes.toFinset outpoint) := by
  obtain rfl : behind = ledger := by
    cases h.run
    rfl
  rw [h.tracks.view outpoint, h.watched, ← h.follows.utxo]
  cases hentry : chain.utxo.lookup outpoint with
  | none => rfl
  | some entry =>
      rw [Option.bind_some, Option.bind_some, seenEntry, if_neg]
      exact ne_coinbase_of_unspent hreachable hentry

theorem SyncRun.lookup_utxos {hashes : List Hash160}
    (h : SyncRun BatchOk genesis hashes chain wallet) (taken : chain.takeEvents.1 = .ok [])
    (outpoint : OutPoint) :
    wallet.utxos.lookup outpoint =
      (chain.utxo.lookup outpoint).bind (watchedEntry hashes.toFinset outpoint) := by
  obtain ⟨moves, behind, ledger, hstep⟩ := h.inStep
  have hnone := hstep.events
  rw [← (takeEvents_eq h.reachable hstep.mark_le taken).1] at hnone
  obtain rfl : moves = [] := List.map_eq_nil_iff.mp hnone.symm
  exact hstep.lookup_utxos h.reachable outpoint

/-- In a run whose batches are good, a wallet that has applied a batch holds
exactly the unspent outputs that pay a watched hash. -/
theorem syncRun_view {hashes : List Hash160} (h : SyncRun BatchOk genesis hashes chain wallet)
    {events : List ChainEvent} (taken : chain.takeEvents.1 = .ok events)
    (ok : BatchOk chain.takeEvents.2 events wallet) :
    (applyEvents chain.takeEvents.2 events wallet).1 = .ok () ∧
      ∀ outpoint, (applyEvents chain.takeEvents.2 events wallet).2.utxos.lookup outpoint =
        (chain.takeEvents.2.utxo.lookup outpoint).bind
          (watchedEntry hashes.toFinset outpoint) := by
  obtain ⟨moves, behind, ledger, hstep⟩ := h.inStep
  obtain ⟨hresult, hsynced⟩ := hstep.sync h.reachable taken ok
  exact ⟨hresult, hsynced.lookup_utxos (.takeEvents h.reachable)⟩

end Wallet

end Bitrst

namespace Bitrst.Sample

open Wallet

def payee : Wallet := watching [publicKeyHash]

/-- On the branch of `side`, a block that pays the key. -/
def sidePaying : Block := ⟨header sideHash payingCoinId 1003 0, [payingCoin]⟩

/-- A reorganisation with no event taken since the start. -/
def turned : Chain := switched (grown paying) paying sidePaying

def turnedEvents : List ChainEvent :=
  [.blockConnected 0 genesisHash 1, .blockConnected 1 paying.hash 2,
    .blockDisconnected 1 paying.hash, .blockConnected 1 sideHash 1,
    .blockConnected 2 sidePaying.hash 1, .chainReorg 1 paying.hash sidePaying.hash]

section Runs

variable {cond : Chain → List ChainEvent → Wallet → Prop} {hashes : List Hash160} {wallet : Wallet}
  {base : Chain} {tip last : Block}

theorem opened_syncRun (hopens : Opens tip) :
    SyncRun cond genesis hashes (grown tip) (watching hashes) := by
  have hstart : SyncRun cond genesis hashes start (watching hashes) := .start start_created
  have htip := Chain.connectBlock_eq_place hstart.reachable.coherent.indexed rfl order
    hopens.admitted
  rw [hopens.place_eq] at htip
  have hgrown := hstart.connect order tip (congrArg Prod.fst htip)
  rwa [htip] at hgrown

theorem switched_syncRun (hbase : SyncRun cond genesis hashes base wallet) (hsplits : Splits base)
    (hchallenges : Challenges base tip last)
    (hvalid : (branched base tip).validateBlockForParent last (branched base tip).blocks.getLast?
      (some last.header.prevBlockhash) ((branched base tip).height + 1) = .ok ()) :
    SyncRun cond genesis hashes (switched base tip last) wallet := by
  have hside := Chain.connectBlock_eq_place hbase.reachable.coherent.indexed hsplits.orphans order
    hsplits.admitted
  rw [hsplits.place_eq] at hside
  have hforked := hbase.connect order side (congrArg Prod.fst hside)
  rw [hside] at hforked
  have hlast := Chain.connectBlock_eq_place hforked.reachable.coherent.indexed
    hchallenges.orphans order hchallenges.admitted
  rw [hchallenges.place_eq hforked.reachable.coherent.indexed hvalid] at hlast
  have hswitched := hforked.connect order last (congrArg Prod.fst hlast)
  rwa [hlast] at hswitched

end Runs

def turnedWallet : Wallet := (applyEvents turned.takeEvents.2 turnedEvents payee).2

theorem turned_syncRun {cond : Chain → List ChainEvent → Wallet → Prop} :
    SyncRun cond genesis [publicKeyHash] turned payee := by
  obtain ⟨hopens, hsplits, hchallenges, hvalid⟩ : Opens paying ∧ Splits (grown paying) ∧
      Challenges (grown paying) paying sidePaying ∧
      (branched (grown paying) paying).validateBlockForParent sidePaying
        (branched (grown paying) paying).blocks.getLast? (some sidePaying.header.prevBlockhash)
          ((branched (grown paying) paying).height + 1) = .ok () := by
    decide +kernel
  exact switched_syncRun (opened_syncRun hopens) hsplits hchallenges hvalid

/-- `paying` is named after it was reorganised away, and the wallet connects `side` for it. -/
theorem turned_batchOk : BatchOk turned.takeEvents.2 turnedEvents payee := by
  have hpaying : turned.takeEvents.2.blockByHash paying.hash = some paying := by decide +kernel
  refine ⟨⟨genesis, rfl, ?_, ?_⟩, ⟨side, rfl, ?_, ?_⟩, ?_, ⟨side, rfl, ?_, ?_⟩,
    ⟨sidePaying, rfl, ?_, ?_⟩, trivial, trivial⟩
  · unfold OverwritesHeld
    decide +kernel
  · exact fun hne ↦ (hne (by decide +kernel)).elim
  · exact fun heq ↦ absurd heq (by decide +kernel)
  · intro _ named hnamed
    obtain rfl := Option.some.inj (hpaying.symm.trans hnamed)
    unfold CreatesHeld
    decide +kernel
  · intro block undo _ hundo
    have hnone : (applyEvents turned.takeEvents.2 [.blockConnected 1 paying.hash 2]
        (applyEvents turned.takeEvents.2 [.blockConnected 0 genesisHash 1]
          payee).2).2.blockUndo.lookup paying.hash = none := by
      decide +kernel
    rw [hnone] at hundo
    cases hundo
  · unfold OverwritesHeld
    decide +kernel
  · exact fun hne ↦ (hne (by decide +kernel)).elim
  · unfold OverwritesHeld
    decide +kernel
  · exact fun hne ↦ (hne (by decide +kernel)).elim

theorem turned_taken : turned.takeEvents.1 = .ok turnedEvents ∧
    turned.takeEvents.2.takeEvents.1 = .ok [] := by
  decide +kernel

theorem turned_view : (applyEvents turned.takeEvents.2 turnedEvents payee).1 = .ok () ∧
    turnedWallet.utxos.lookup ⟨payingCoinId, 0⟩ =
      some ⟨⟨payingCoinId, 0⟩, 50, [0x76, 0xa9, 20] ++ publicKeyHash.toList ++ [0x88, 0xac]⟩ := by
  obtain ⟨hresult, hview⟩ := syncRun_view turned_syncRun turned_taken.1 turned_batchOk
  exact ⟨hresult, (hview _).trans (by decide +kernel)⟩

/-- The events of the block that pays the wallet are taken before the fork. -/
def synced : Chain := (grown paying).takeEvents.2

theorem synced_run : Opens paying ∧ Splits synced ∧ Challenges synced paying sideNext ∧
    (branched synced paying).validateBlockForParent sideNext
      (branched synced paying).blocks.getLast? (some sideNext.header.prevBlockhash)
        ((branched synced paying).height + 1) = .ok () := by
  decide +kernel

def payingEvents : List ChainEvent :=
  [.blockConnected 0 genesisHash 1, .blockConnected 1 paying.hash 2]

def reorgEvents : List ChainEvent :=
  [.blockDisconnected 1 paying.hash, .blockConnected 1 sideHash 1,
    .blockConnected 2 sideNext.hash 1, .chainReorg 1 paying.hash sideNext.hash]

def paid : Wallet := (applyEvents synced payingEvents payee).2

/-- Disconnecting a block that spends what it paid the wallet brings the spent
output back into the wallet. -/
theorem switched_wallet_differs : SyncRun (fun _ _ _ ↦ True) genesis [publicKeyHash]
    (switched synced paying sideNext) paid ∧
    (switched synced paying sideNext).takeEvents.1 = .ok reorgEvents ∧
    (applyEvents (switched synced paying sideNext).takeEvents.2 reorgEvents paid).2.utxos.lookup
        ⟨payingCoinId, 0⟩ ≠
      ((switched synced paying sideNext).takeEvents.2.utxo.lookup ⟨payingCoinId, 0⟩).bind
        (watchedEntry {publicKeyHash} ⟨payingCoinId, 0⟩) := by
  obtain ⟨hopens, hsplits, hchallenges, hvalid⟩ := synced_run
  have htaken : (grown paying).takeEvents.1 = .ok payingEvents := by decide +kernel
  have hsynced : SyncRun (fun _ _ _ ↦ True) genesis [publicKeyHash] synced paid :=
    (opened_syncRun hopens).sync htaken trivial
  exact ⟨switched_syncRun hsynced hsplits hchallenges hvalid, by decide +kernel, by decide +kernel⟩

end Bitrst.Sample
