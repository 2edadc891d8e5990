import Bitrst.Ledger
import Bitrst.TakenOutputs
import Bitrst.WalletView

/-!
# A wallet catching up with the chain

The events of a batch announce the moves of the stack that the chain followed
when it pushed them.  The wallet does not make these moves: for every connect
it looks up the block that is active at the height now, which may be another
one, and a disconnect only reaches blocks that it has undo data for.

In the middle of a batch the stack has three parts.  The lowest frames are
shared with the chain as it is now.  Above them are frames that the wallet had
connected in earlier batches and that are lost since; above these, frames that
are only passing: they come and go within the batch.  Every block of the
chain above the shared frames is still to be connected for good, so that what
it touches may be wrong until then; under all other outpoints the wallet has a
view of what is left when the passing frames are popped.
-/

namespace Bitrst

open Support

variable [Crypto]

/-- The transactions of the blocks that the chain has indexed. -/
def Chain.knownTransactions (chain : Chain) : Set Transaction :=
  {tx | ∃ hash known, chain.known.lookup hash = some known ∧ tx ∈ known.block.transactions}

namespace Wallet

variable {genesis : Block} {chain : Chain} {wallet : Wallet} {ledger ledger' : Ledger}

/-! ## The condition on a batch -/

/-- Some transaction of the block creates an output that pays no watched hash
under an outpoint that the wallet holds when its turn comes. -/
def OverwritesHeld (wallet : Wallet) (block : Block) : Prop :=
  Overwrites (block.watchedPairs wallet.watched) wallet.utxos

/-- Some transaction of the block creates an output under an outpoint that the
wallet holds. -/
def CreatesHeld (wallet : Wallet) (block : Block) : Prop :=
  ∃ tx ∈ block.transactions, ∃ created ∈ tx.createdEntries,
    (wallet.utxos.lookup created.1).isSome

/-- Some transaction of the block creates an output that pays a watched hash,
and a later one spends it. -/
def SpendsOwnOutput (watched : Finset Hash160) (block : Block) : Prop :=
  ∃ outpoint, SpendsWritten (block.walletPatches watched) outpoint

/-- The undo data lists exactly the outputs paying a watched hash that the block
spends, whichever block known to the chain created them. -/
def ListsSpent (chain : Chain) (watched : Finset Hash160) (block : Block)
    (undo : WalletBlockUndo) : Prop :=
  ∀ tx ∈ block.transactions, ∀ input ∈ tx.inputs, ∀ source ∈ chain.knownTransactions, ∀ entry,
    source.outputAt input.outPoint = some entry → ∀ utxo,
      utxo ∈ undo.removed ∧ utxo.outpoint = input.outPoint ↔
        watchedEntry watched input.outPoint entry = some utxo

/-- A connect event finds an active block at its height.  If it is the block
named, it overwrites nothing that the wallet holds; if it is another one, the
block named, which is reorganised away since, creates nothing under an outpoint
that the wallet holds.  A disconnected block that the wallet has undo data for
is active again, or it spends no watched output of its own and the data lists
what it spends. -/
def EventOk (chain : Chain) (wallet : Wallet) : ChainEvent → Prop
  | .blockConnected height hash _ => ∃ block, chain.activeBlockAt height = some block ∧
      (block.hash = hash → ¬ wallet.OverwritesHeld block) ∧
        (block.hash ≠ hash → ∀ named, chain.blockByHash hash = some named →
          ¬ wallet.CreatesHeld named)
  | .blockDisconnected _ hash => ∀ block undo, chain.blockByHash hash = some block →
      wallet.blockUndo.lookup hash = some undo → block ∈ chain.blocks ∨
        ¬ SpendsOwnOutput wallet.watched block ∧ ListsSpent chain wallet.watched block undo
  | _ => True

/-- Every event of the batch meets the condition when its turn comes. -/
def BatchOk (chain : Chain) : List ChainEvent → Wallet → Prop
  | [], _ => True
  | event :: rest, wallet =>
      EventOk chain wallet event ∧ BatchOk chain rest (applyEvents chain [event] wallet).2

/-! ## Undo data -/

variable {watched : Finset Hash160} {block : Block} {utxos : HashMap OutPoint WalletUtxo}
  {outpoint : OutPoint}

/-- No known block within the limits creates an output under the outpoint that
coinbases name. -/
theorem ne_coinbase_of_outputAt (hlimits : Chain.WithinLimits chain) {source : Transaction}
    (hsource : source ∈ chain.knownTransactions) {entry : UtxoEntry}
    (houtput : source.outputAt outpoint = some entry) : outpoint ≠ coinbaseOutPoint := by
  obtain ⟨hash, known, hknown, hmem⟩ := hsource
  have hfew := Block.length_outputs_lt (hlimits hash known hknown) hmem
  exact Transaction.created_ne_coinbase hfew (Patch.mem_writes_of_written houtput)

theorem mem_created_iff :
    outpoint ∈ (jointUndo (block.walletPatches watched) utxos).created ↔
      ∃ pair ∈ block.watchedPairs watched, outpoint ∈ pair.2.writes.map Prod.fst := by
  rw [mem_jointUndo_created, ← block.watchedPairs_snd]
  simp only [List.mem_map, exists_exists_and_eq_and]

theorem spent_of_mem_removed (hlimits : Chain.validateBlockLimits block = .ok ())
    (hfiled : OfKind Filed utxos) {utxo : WalletUtxo}
    (hremoved : (outpoint, utxo) ∈ (jointUndo (block.walletPatches watched) utxos).removed) :
    ∃ pair ∈ block.watchedPairs watched, outpoint ∈ pair.1.spends := by
  obtain ⟨patch, hpatch, hspend⟩ := spent_of_mem_jointUndo_removed hremoved
  rw [← block.watchedPairs_snd] at hpatch
  obtain ⟨pair, hpair, rfl⟩ := List.mem_map.mp hpatch
  refine ⟨pair, hpair, ?_⟩
  -- Only the outpoint that coinbases name is spent by the wallet alone, and nothing is filed there.
  by_contra hnot
  obtain ⟨tx, htx, rfl⟩ := List.mem_map.mp hpair
  exact (hfiled.jointUndo_removed (filed_of_written watched hlimits) _ hremoved).2
    (Transaction.eq_coinbase_of_not_spent hspend hnot)

/-- Undo data of a block has nothing under outpoints that the block leaves alone. -/
theorem restoresAt_of_not_touched (hlimits : Chain.validateBlockLimits block = .ok ())
    (hfiled : OfKind Filed utxos) (before : UtxoSet)
    (htouched : ¬ Touched (block.walletPatches watched) outpoint) :
    RestoresAt (seenEntry watched) (block.watchedPairs watched) before
      (jointUndo (block.walletPatches watched) utxos) outpoint := by
  have hspends : ¬ ∃ pair ∈ block.watchedPairs watched, outpoint ∈ pair.1.spends := by
    rintro ⟨pair, hpair, hspend⟩
    apply htouched
    refine ⟨pair.2, ?_,
      Or.inl ((block.watchedPairs_watch watched hlimits pair hpair).spends hspend)⟩
    rw [← block.watchedPairs_snd]
    exact List.mem_map_of_mem hpair
  refine ⟨mem_created_iff, ?_, fun hspent ↦ (hspends hspent).elim⟩
  intro utxo hremoved
  exact spent_of_mem_removed hlimits hfiled hremoved

/-- Undo data that lists what the block spends restores it. -/
theorem restoresAt_of_listsSpent (hlimits : Chain.WithinLimits chain) {known : BlockMeta}
    (hknown : chain.known.lookup block.hash = some known) (hblock : known.block = block)
    (hfiled : OfKind Filed utxos) {before : UtxoSet}
    (hbefore : before.CreatedBy chain.knownTransactions)
    (hlists : ListsSpent chain watched block (recordOf watched block utxos)) :
    RestoresAt (seenEntry watched) (block.watchedPairs watched) before
      (jointUndo (block.walletPatches watched) utxos) outpoint := by
  have hwithin : Chain.validateBlockLimits block = .ok () := hblock ▸ hlimits _ known hknown
  refine ⟨mem_created_iff, fun utxo ↦ spent_of_mem_removed hwithin hfiled, ?_⟩
  rintro ⟨pair, hpair, hspend⟩ entry hsupplied utxo
  obtain ⟨tx, htx, rfl⟩ := List.mem_map.mp hpair
  obtain ⟨input, hinput, rfl⟩ := List.mem_map.mp (Transaction.mem_spentOutPoints hspend)
  obtain ⟨source, hsource, houtput⟩ : ∃ source ∈ chain.knownTransactions,
      source.outputAt input.outPoint = some entry := by
    rcases hsupplied with hold | ⟨patch, hpatch, hwritten⟩
    · exact hbefore _ _ hold
    · rw [block.watchedPairs_fst] at hpatch
      obtain ⟨source, hsource, rfl⟩ := List.mem_map.mp hpatch
      exact ⟨source, ⟨_, known, hknown, hblock ▸ hsource⟩, hwritten⟩
  rw [seenEntry, if_neg (ne_coinbase_of_outputAt hlimits hsource houtput),
    ← hlists tx htx input hinput source hsource entry houtput utxo]
  constructor
  · intro hremoved
    exact ⟨List.mem_map_of_mem hremoved,
      (hfiled.jointUndo_removed (filed_of_written watched hwithin) _ hremoved).1⟩
  · rintro ⟨hremoved, houtpoint⟩
    obtain ⟨⟨outpoint', utxo'⟩, hmem, rfl⟩ := List.mem_map.mp hremoved
    rwa [← houtpoint, (hfiled.jointUndo_removed (filed_of_written watched hwithin) _ hmem).1]

/-- Going back over a block, a wallet keeps its view under an outpoint that the block leaves
alone, and under any outpoint if the block is valid and its undo data restores it. -/
theorem sees_revert {frame : Frame Block OutPoint UtxoEntry} {state : UtxoSet}
    {held : HashMap OutPoint WalletUtxo}
    (hwithin : Chain.validateBlockLimits frame.item = .ok ()) (hfiled : OfKind Filed utxos)
    (hsub : Submap state (frame.after Block.patches))
    (hseen : Sees (seenEntry watched) state held outpoint)
    (hundo : ¬ Touched (frame.item.walletPatches watched) outpoint ∨
      ¬ SpendsOwnOutput watched frame.item ∧
        RestoresAt (seenEntry watched) (frame.item.watchedPairs watched) frame.before
          (jointUndo (frame.item.walletPatches watched) utxos) outpoint ∧
            Chain.validateBlockTransactionsForUtxo frame.item frame.before = .ok ()) :
    Sees (seenEntry watched) (revertAll (frame.undos Block.patches) state)
      ((jointUndo (frame.item.walletPatches watched) utxos).revert held) outpoint := by
  have hwatches := frame.item.watchedPairs_watch watched hwithin
  obtain ⟨hrestores, hown, hheld⟩ :
      RestoresAt (seenEntry watched) (frame.item.watchedPairs watched) frame.before
          (jointUndo (frame.item.walletPatches watched) utxos) outpoint ∧
        ¬ SpendsWritten (frame.item.walletPatches watched) outpoint ∧
          ((∃ pair ∈ frame.item.watchedPairs watched, outpoint ∈ pair.1.spends) →
            ¬ Clobbers (frame.item.transactions.map Transaction.patch) outpoint →
              (frame.before.lookup outpoint).isSome) := by
    rcases hundo with htouched | ⟨hown, hrestores, hvalid⟩
    · refine ⟨restoresAt_of_not_touched hwithin hfiled frame.before htouched,
        fun hown ↦ htouched hown.touched, ?_⟩
      rintro ⟨pair, hpair, hspend⟩
      refine (htouched ⟨pair.2, ?_, Or.inl ((hwatches pair hpair).spends hspend)⟩).elim
      rw [← frame.item.watchedPairs_snd]
      exact List.mem_map_of_mem hpair
    · refine ⟨hrestores, fun hspends ↦ hown ⟨outpoint, hspends⟩, ?_⟩
      rintro ⟨pair, hpair, hspend⟩ hclobbers
      obtain ⟨tx, htx, rfl⟩ := List.mem_map.mp hpair
      apply Block.validate_held hvalid
      exact Transaction.mem_takenOutPoints_of_not_clobbers ⟨tx, htx, hspend⟩ hclobbers
  unfold Frame.after Block.patches at hsub
  rw [← frame.item.watchedPairs_fst watched] at hsub hheld
  rw [← frame.item.watchedPairs_snd] at hown
  have hback := sees_revertAll hwatches hsub hseen hrestores hown hheld
  rwa [frame.item.watchedPairs_fst] at hback

theorem lookup_revert_of_not_touched (utxos held : HashMap OutPoint WalletUtxo)
    (htouched : ¬ Touched (block.walletPatches watched) outpoint) :
    ((jointUndo (block.walletPatches watched) utxos).revert held).lookup outpoint =
      held.lookup outpoint := by
  apply Undo.lookup_revert_of_notMem
  · intro hcreated
    obtain ⟨patch, hpatch, hwrite⟩ := mem_jointUndo_created.mp hcreated
    exact htouched ⟨patch, hpatch, Or.inr hwrite⟩
  · intro hremoved
    obtain ⟨⟨outpoint', utxo⟩, hmem, rfl⟩ := List.mem_map.mp hremoved
    obtain ⟨patch, hpatch, hspend⟩ := spent_of_mem_jointUndo_removed hmem
    exact htouched ⟨patch, hpatch, Or.inl hspend⟩

/-- What disconnecting a block does to a wallet whose undo data for it, if any, was made when it
was connected. -/
theorem disconnectBlock_spec (hwithin : Chain.validateBlockLimits block = .ok ())
    (hfiled : OfKind Filed wallet.utxos)
    (hrecord : ∀ undo, wallet.blockUndo.lookup block.hash = some undo →
      ∃ utxos, OfKind Filed utxos ∧ undo = recordOf wallet.watched block utxos) :
    (wallet.disconnectBlock block.hash).watched = wallet.watched ∧
      OfKind Filed (wallet.disconnectBlock block.hash).utxos ∧
        (∀ hash, (wallet.disconnectBlock block.hash).blockUndo.lookup hash =
          if hash = block.hash then none else wallet.blockUndo.lookup hash) ∧
            (wallet.blockUndo.lookup block.hash = none ∧
                (wallet.disconnectBlock block.hash).utxos = wallet.utxos ∨
              ∃ utxos, OfKind Filed utxos ∧
                wallet.blockUndo.lookup block.hash =
                  some (recordOf wallet.watched block utxos) ∧
                (wallet.disconnectBlock block.hash).utxos =
                  (jointUndo (block.walletPatches wallet.watched) utxos).revert wallet.utxos) := by
  cases hundo : wallet.blockUndo.lookup block.hash with
  | none =>
      have hsame : wallet.disconnectBlock block.hash = wallet := by
        unfold disconnectBlock
        rw [hundo]
      rw [hsame]
      refine ⟨rfl, hfiled, fun hash ↦ ?_, Or.inl ⟨rfl, rfl⟩⟩
      split
      · rename_i hhash
        rw [hhash, hundo]
      · rfl
  | some undo =>
      obtain ⟨utxos, hutxos, rfl⟩ := hrecord undo hundo
      rw [wallet.disconnectBlock_eq hwithin hutxos hundo]
      refine ⟨rfl, ?_, fun hash ↦ HashMap.lookup_erase_ite _ _ _,
        Or.inr ⟨utxos, hutxos, rfl, rfl⟩⟩
      exact (hfiled.eraseAll _).insertAll
        (hutxos.jointUndo_removed (filed_of_written wallet.watched hwithin))

/-! ## Tracking a stack -/

/-- The outputs of the wallet are a view of the state of a stack of validated
blocks, and it has undo data for exactly the blocks of the stack. -/
structure Tracks (wallet : Wallet) (ledger : Ledger) : Prop where
  view : ∀ outpoint, Sees (seenEntry wallet.watched) ledger.state wallet.utxos outpoint
  filed : OfKind Filed wallet.utxos
  recorded : ∀ frame ∈ ledger.frames, wallet.blockUndo.lookup frame.item.hash ≠ none
  records : ∀ hash undo, wallet.blockUndo.lookup hash = some undo →
    ∃ frame ∈ ledger.frames, frame.item.hash = hash ∧
      ∃ utxos, OfKind Filed utxos ∧ undo = recordOf wallet.watched frame.item utxos
  grounded : UndoStack.Grounded Block.patches ledger
  validated : ledger.Validated

/-- The block of every frame is indexed with its depth. -/
def FramesIndexed (chain : Chain) (ledger : Ledger) : Prop :=
  ∀ i frame, ledger.frames[i]? = some frame → ∃ entry,
    chain.known.lookup frame.item.hash = some entry ∧ entry.block = frame.item ∧ entry.height = i

namespace FramesIndexed

theorem push (h : FramesIndexed chain ledger) {block : Block}
    (hblock : ∃ entry, chain.known.lookup block.hash = some entry ∧ entry.block = block ∧
      entry.height = ledger.frames.length) :
    FramesIndexed chain (ledger.push Block.patches block) := by
  intro i frame hi
  change (ledger.frames ++ [⟨block, ledger.state⟩])[i]? = some frame at hi
  by_cases hlt : i < ledger.frames.length
  · rw [List.getElem?_append_left hlt] at hi
    exact h i frame hi
  · have hlength := (List.getElem?_eq_some_iff.mp hi).1
    rw [List.length_append, List.length_singleton] at hlength
    obtain rfl : i = ledger.frames.length := by omega
    rw [List.getElem?_concat_length] at hi
    obtain rfl := Option.some.inj hi
    exact hblock

theorem pop {frames : List (Frame Block OutPoint UtxoEntry)}
    {frame : Frame Block OutPoint UtxoEntry} {state : UtxoSet}
    (h : FramesIndexed chain ⟨frames ++ [frame], state⟩) :
    FramesIndexed chain (UndoStack.popped Block.patches frames frame state) := by
  intro i below hi
  apply h i below
  have hlt := (List.getElem?_eq_some_iff.mp hi).1
  exact (List.getElem?_append_left hlt).trans hi

theorem run {moves : List (Move Block)} (h : FramesIndexed chain ledger)
    (hrun : UndoStack.Run Block.patches ledger moves ledger')
    (hpushes : Chain.PushesIndexed chain moves) : FramesIndexed chain ledger' := by
  induction hrun with
  | nil => exact h
  | push item _ ih =>
      exact ih (h.push (hpushes _ item List.mem_cons_self))
        fun depth other hmem ↦ hpushes depth other (List.mem_cons_of_mem _ hmem)
  | pop _ ih =>
      exact ih h.pop fun depth other hmem ↦ hpushes depth other (List.mem_cons_of_mem _ hmem)

/-- A hash is found at one depth only. -/
theorem depth_unique (h : FramesIndexed chain ledger) {i j : ℕ}
    {frame other : Frame Block OutPoint UtxoEntry} (hi : ledger.frames[i]? = some frame)
    (hj : ledger.frames[j]? = some other) (hhash : frame.item.hash = other.item.hash) : i = j := by
  obtain ⟨entry, hentry, -, hheight⟩ := h i frame hi
  obtain ⟨entry', hentry', -, hheight'⟩ := h j other hj
  rw [hhash, hentry'] at hentry
  rw [← hheight, ← hheight', Option.some.inj hentry]

/-- The block on top has a hash of its own. -/
theorem top_ne {frames : List (Frame Block OutPoint UtxoEntry)}
    {frame : Frame Block OutPoint UtxoEntry} {state : UtxoSet}
    (h : FramesIndexed chain ⟨frames ++ [frame], state⟩) :
    ∀ below ∈ frames, below.item.hash ≠ frame.item.hash := by
  intro below hbelow hhash
  obtain ⟨i, hi⟩ := List.mem_iff_getElem?.mp hbelow
  have hlt := (List.getElem?_eq_some_iff.mp hi).1
  have hdepth := h.depth_unique ((List.getElem?_append_left hlt).trans hi)
    List.getElem?_concat_length hhash
  exact hlt.ne hdepth

theorem mem_known (h : FramesIndexed chain ledger) {frame : Frame Block OutPoint UtxoEntry}
    (hframe : frame ∈ ledger.frames) : ∃ entry,
      chain.known.lookup frame.item.hash = some entry ∧ entry.block = frame.item := by
  obtain ⟨i, hi⟩ := List.mem_iff_getElem?.mp hframe
  obtain ⟨entry, hentry, hblock, -⟩ := h i frame hi
  exact ⟨entry, hentry, hblock⟩

/-- An active block on the stack is at the depth where it is active. -/
theorem active_at (h : FramesIndexed chain ledger) (hchain : Chain.Indexed genesis chain) {i : ℕ}
    {frame : Frame Block OutPoint UtxoEntry} (hi : ledger.frames[i]? = some frame)
    (hactive : frame.item ∈ chain.blocks) : chain.blocks[i]? = some frame.item := by
  obtain ⟨j, hj⟩ := List.mem_iff_getElem?.mp hactive
  obtain ⟨entry, hentry, -, hheight⟩ := h i frame hi
  obtain ⟨entry', hentry', -, hheight'⟩ := hchain.active_known j _ hj
  rw [hentry] at hentry'
  rw [← hheight, Option.some.inj hentry', hheight', hj]

end FramesIndexed

/-! ## In the middle of a batch -/

/-- No active block from the depth on touches the outpoint. -/
def Settled (chain : Chain) (watched : Finset Hash160) (depth : ℕ) (outpoint : OutPoint) : Prop :=
  ∀ block ∈ chain.blocks.drop depth, ¬ Touched (block.walletPatches watched) outpoint

theorem Settled.not_touched {depth i : ℕ} (h : Settled chain watched depth outpoint)
    (hi : chain.blocks[i]? = some block) (hdepth : depth ≤ i) :
    ¬ Touched (block.walletPatches watched) outpoint := by
  apply h
  rw [List.mem_iff_getElem?]
  exact ⟨i - depth, by rwa [List.getElem?_drop, Nat.add_sub_cancel' hdepth]⟩

theorem Settled.mono {depth depth' : ℕ} (h : Settled chain watched depth outpoint)
    (hle : depth ≤ depth') : Settled chain watched depth' outpoint := by
  intro block hblock
  obtain ⟨i, hi⟩ := List.mem_iff_getElem?.mp hblock
  rw [List.getElem?_drop] at hi
  exact h.not_touched hi (hle.trans (Nat.le_add_right _ _))

/-- Before a block that leaves the outpoint alone nothing else is touched. -/
theorem Settled.pred {depth : ℕ} (h : Settled chain watched (depth + 1) outpoint)
    (hblock : chain.blocks[depth]? = some block)
    (htouched : ¬ Touched (block.walletPatches watched) outpoint) :
    Settled chain watched depth outpoint := by
  obtain ⟨hlt, rfl⟩ := List.getElem?_eq_some_iff.mp hblock
  intro other hother
  rw [List.drop_eq_getElem_cons hlt] at hother
  rcases List.mem_cons.mp hother with rfl | hlater
  · exact htouched
  · exact h other hlater

variable {shared lost passing : List (Frame Block OutPoint UtxoEntry)} {state : UtxoSet}

/-- The three parts of the stack, and the wallet on the way. -/
structure CatchesUp (chain : Chain) (wallet : Wallet)
    (shared lost passing : List (Frame Block OutPoint UtxoEntry)) (state : UtxoSet) : Prop where
  agree : shared.map Frame.item <+: chain.blocks
  view : ∀ outpoint, Settled chain wallet.watched shared.length outpoint →
    Sees (seenEntry wallet.watched)
      (UndoStack.unwind Block.patches (shared ++ lost) passing state).state wallet.utxos outpoint
  filed : OfKind Filed wallet.utxos
  recorded : ∀ frame ∈ shared ++ lost, wallet.blockUndo.lookup frame.item.hash ≠ none
  records : ∀ hash undo, wallet.blockUndo.lookup hash = some undo → ∃ block,
    (block ∈ chain.blocks ∨ ∃ frame ∈ lost, frame.item = block) ∧ block.hash = hash ∧
      ∃ utxos, OfKind Filed utxos ∧ undo = recordOf wallet.watched block utxos
  validated : ∀ frame ∈ lost, frame.item ∉ chain.blocks →
    Chain.validateBlockTransactionsForUtxo frame.item frame.before = .ok ()
  grounded : UndoStack.Grounded Block.patches ⟨shared ++ lost ++ passing, state⟩
  indexed : FramesIndexed chain ⟨shared ++ lost ++ passing, state⟩

namespace CatchesUp

/-- Undo data for a block of the stack was made when that block was connected. -/
theorem recordOf_frame (h : CatchesUp chain wallet shared lost passing state)
    (hchain : Chain.Indexed genesis chain) {frame : Frame Block OutPoint UtxoEntry}
    (hframe : frame ∈ shared ++ lost ++ passing) {undo : WalletBlockUndo}
    (hundo : wallet.blockUndo.lookup frame.item.hash = some undo) :
    (frame.item ∈ chain.blocks ∨ ∃ below ∈ lost, below.item = frame.item) ∧
      ∃ utxos, OfKind Filed utxos ∧ undo = recordOf wallet.watched frame.item utxos := by
  obtain ⟨block, hfrom, hhash, hrecord⟩ := h.records _ undo hundo
  obtain ⟨entry, hentry, hitem⟩ := h.indexed.mem_known hframe
  have hblock : block = frame.item := by
    rw [← hitem]
    rcases hfrom with hactive | ⟨below, hbelow, rfl⟩
    · obtain ⟨i, hi⟩ := List.mem_iff_getElem?.mp hactive
      obtain ⟨known, hknown, hknownBlock, -⟩ := hchain.active_known i block hi
      rw [hhash, hentry] at hknown
      rw [← hknownBlock, Option.some.inj hknown]
    · obtain ⟨known, hknown, hknownBlock⟩ := h.indexed.mem_known
        (List.mem_append_left passing (List.mem_append_right shared hbelow))
      rw [hhash, hentry] at hknown
      rw [← hknownBlock, Option.some.inj hknown]
  subst hblock
  exact ⟨hfrom, hrecord⟩

/-- Connecting for good the next active block. -/
theorem connect_shared {item : Block} (h : CatchesUp chain wallet shared [] [] state)
    (hwithin : Chain.validateBlockLimits item = .ok ())
    (hactive : chain.blocks[shared.length]? = some item)
    (hitem : ∃ entry, chain.known.lookup item.hash = some entry ∧ entry.block = item ∧
      entry.height = shared.length)
    (hover : ¬ wallet.OverwritesHeld item) :
    CatchesUp chain (wallet.connectBlock item) (shared ++ [⟨item, state⟩]) [] []
      (applyAll item.patches state) := by
  have hgrounded := h.grounded
  have hindexed := h.indexed
  simp only [List.append_nil] at hgrounded hindexed
  rw [connectBlock_eq]
  refine ⟨?_, ?_, h.filed.applyAll (filed_of_written wallet.watched hwithin), ?_, ?_, by simp,
    ?_, ?_⟩
  · obtain ⟨later, hlater⟩ := h.agree
    rw [← hlater, List.getElem?_append_right (List.length_map _).le, List.length_map,
      Nat.sub_self] at hactive
    cases later with
    | nil => cases hactive
    | cons next later =>
        obtain rfl : next = item := Option.some.inj hactive
        exact ⟨later, by rw [← hlater, List.map_append, List.append_assoc]; rfl⟩
  · intro outpoint hsettled
    rw [List.length_append, List.length_singleton] at hsettled
    have hseen : Sees (seenEntry wallet.watched) state wallet.utxos outpoint ∨
        Touched (item.walletPatches wallet.watched) outpoint := by
      by_cases htouched : Touched (item.walletPatches wallet.watched) outpoint
      · exact Or.inr htouched
      · exact Or.inl (h.view outpoint (hsettled.pred hactive htouched))
    have hview := sees_applyAll (item.watchedPairs_watch wallet.watched hwithin) hover
      (by rwa [item.watchedPairs_snd])
    rwa [item.watchedPairs_fst, item.watchedPairs_snd] at hview
  · intro frame hframe
    rw [HashMap.lookup_insert_ite]
    split
    · simp
    · rename_i hne
      rw [List.append_nil] at hframe
      rcases List.mem_append.mp hframe with hold | hlast
      · exact h.recorded frame (List.mem_append_left _ hold)
      · rw [List.mem_singleton.mp hlast] at hne
        exact (hne rfl).elim
  · intro hash undo hundo
    rw [HashMap.lookup_insert_ite] at hundo
    split at hundo
    · rename_i hhash
      exact ⟨item, Or.inl (List.mem_of_getElem? hactive), hhash.symm, wallet.utxos, h.filed,
        (Option.some.inj hundo).symm⟩
    · exact h.records hash undo hundo
  · simp only [List.append_nil]
    exact hgrounded.push item
  · simp only [List.append_nil]
    exact hindexed.push hitem

/-- Connecting whatever is active now for a block that is only passing. -/
theorem connect_passing {item block : Block} (h : CatchesUp chain wallet shared lost passing state)
    (hwithin : Chain.validateBlockLimits block = .ok ())
    (hactive : chain.blocks[(shared ++ lost ++ passing).length]? = some block)
    (hitem : ∃ entry, chain.known.lookup item.hash = some entry ∧ entry.block = item ∧
      entry.height = (shared ++ lost ++ passing).length)
    (hfresh : ∀ outpoint, Settled chain wallet.watched shared.length outpoint →
      Clobbers item.patches outpoint → wallet.utxos.lookup outpoint = none) :
    CatchesUp chain (wallet.connectBlock block) shared lost (passing ++ [⟨item, state⟩])
      (applyAll item.patches state) := by
  rw [connectBlock_eq]
  refine ⟨h.agree, ?_, h.filed.applyAll (filed_of_written wallet.watched hwithin), ?_, ?_,
    h.validated, ?_, ?_⟩
  · intro outpoint hsettled
    have hdepth : shared.length ≤ (shared ++ lost ++ passing).length := by
      rw [List.length_append, List.length_append]
      omega
    have hsame := lookup_applyAll_of_not_touched _ wallet.utxos
      (hsettled.not_touched hactive hdepth)
    have hview := sees_revertAll_applyAll (h.view outpoint hsettled) (hfresh outpoint hsettled)
    simp only [UndoStack.unwind, List.flatMap_append, List.flatMap_singleton, revertAll_append]
    rw [Sees, hsame]
    exact hview
  · intro frame hframe
    rw [HashMap.lookup_insert_ite]
    split
    · simp
    · exact h.recorded frame hframe
  · intro hash undo hundo
    rw [HashMap.lookup_insert_ite] at hundo
    split at hundo
    · rename_i hhash
      exact ⟨block, Or.inl (List.mem_of_getElem? hactive), hhash.symm, wallet.utxos, h.filed,
        (Option.some.inj hundo).symm⟩
    · exact h.records hash undo hundo
  · rw [← List.append_assoc]
    exact h.grounded.push item
  · rw [← List.append_assoc]
    exact h.indexed.push hitem

variable {frame : Frame Block OutPoint UtxoEntry}

theorem disconnect_records (h : CatchesUp chain wallet shared lost passing state)
    (hchain : Chain.Indexed genesis chain) (hlimits : Chain.WithinLimits chain)
    (hframe : frame ∈ shared ++ lost ++ passing) :
    Chain.validateBlockLimits frame.item = .ok () ∧
      ∀ undo, wallet.blockUndo.lookup frame.item.hash = some undo →
        ∃ utxos, OfKind Filed utxos ∧ undo = recordOf wallet.watched frame.item utxos := by
  obtain ⟨entry, hentry, hblock⟩ := h.indexed.mem_known hframe
  exact ⟨hblock ▸ hlimits _ entry hentry, fun undo hundo ↦ (h.recordOf_frame hchain hframe hundo).2⟩

/-- A passing frame is popped: the wallet has undo data for its block only if it is active now. -/
theorem disconnect_passing
    (h : CatchesUp chain wallet shared lost (passing ++ [frame]) state)
    (hchain : Chain.Indexed genesis chain) (hlimits : Chain.WithinLimits chain) :
    CatchesUp chain (wallet.disconnectBlock frame.item.hash) shared lost passing
      (revertAll (frame.undos Block.patches) state) := by
  have hmem : frame ∈ shared ++ lost ++ (passing ++ [frame]) := by simp
  have hgrounded := h.grounded
  have hindexed := h.indexed
  rw [← List.append_assoc] at hgrounded hindexed
  obtain ⟨hwithin, hrecord⟩ := h.disconnect_records hchain hlimits hmem
  obtain ⟨hwatched, hfiled, hundos, hutxos⟩ := disconnectBlock_spec hwithin h.filed hrecord
  have hother : ∀ below ∈ shared ++ lost, below.item.hash ≠ frame.item.hash :=
    fun below hbelow ↦ hindexed.top_ne below (List.mem_append_left _ hbelow)
  refine ⟨h.agree, ?_, hfiled, ?_, ?_, h.validated, ?_, ?_⟩
  · intro outpoint hsettled
    rw [hwatched] at hsettled ⊢
    have hsame : (wallet.disconnectBlock frame.item.hash).utxos.lookup outpoint =
        wallet.utxos.lookup outpoint := by
      rcases hutxos with ⟨-, heq⟩ | ⟨utxos, hmade, hundo, heq⟩
      · rw [heq]
      · rw [heq]
        apply lookup_revert_of_not_touched
        rcases (h.recordOf_frame hchain hmem hundo).1 with hactive | ⟨below, hlost, heq⟩
        · apply hsettled.not_touched
            (hindexed.active_at hchain List.getElem?_concat_length hactive)
          rw [List.length_append, List.length_append, Nat.add_assoc]
          exact Nat.le_add_right _ _
        · exact (hother below (List.mem_append_right _ hlost) (by rw [heq])).elim
    have hview := h.view outpoint hsettled
    simp only [UndoStack.unwind, List.flatMap_append, List.flatMap_singleton, revertAll_append]
      at hview
    rw [Sees, hsame]
    exact hview
  · intro below hmem
    rw [hundos, if_neg (hother below hmem)]
    exact h.recorded below hmem
  · intro hash undo hundo
    rw [hundos] at hundo
    rw [hwatched]
    split at hundo
    · cases hundo
    · exact h.records hash undo hundo
  · exact hgrounded.popped
  · exact hindexed.pop

/-- Popping a frame below the passing ones keeps the view where the block leaves the outpoint
alone, and everywhere if the block is valid and the undo data lists what it spends. -/
theorem sees_disconnect {below : List (Frame Block OutPoint UtxoEntry)}
    (h : CatchesUp chain wallet shared lost [] state) (hchain : Chain.Indexed genesis chain)
    (hlimits : Chain.WithinLimits chain) (hframes : shared ++ lost = below ++ [frame])
    (hseen : Sees (seenEntry wallet.watched) state wallet.utxos outpoint)
    (hundo : ¬ Touched (frame.item.walletPatches wallet.watched) outpoint ∨
      (¬ SpendsOwnOutput wallet.watched frame.item ∧
        ∀ undo, wallet.blockUndo.lookup frame.item.hash = some undo →
          ListsSpent chain wallet.watched frame.item undo) ∧
            Chain.validateBlockTransactionsForUtxo frame.item frame.before = .ok ()) :
    Sees (seenEntry wallet.watched) (revertAll (frame.undos Block.patches) state)
      (wallet.disconnectBlock frame.item.hash).utxos outpoint := by
  have hgrounded := h.grounded
  have hindexed := h.indexed
  rw [List.append_nil, hframes] at hgrounded hindexed
  have hmem : frame ∈ shared ++ lost := by simp [hframes]
  obtain ⟨hwithin, hrecord⟩ := h.disconnect_records hchain hlimits (List.mem_append_left _ hmem)
  obtain ⟨-, -, -, hutxos⟩ := disconnectBlock_spec hwithin h.filed hrecord
  rcases hutxos with ⟨hnone, -⟩ | ⟨utxos, hmade, hlookup, heq⟩
  · exact (h.recorded frame hmem hnone).elim
  · rw [heq]
    apply sees_revert hwithin hmade hgrounded.nested.top hseen
    apply hundo.imp_right
    rintro ⟨⟨hown, hlists⟩, hvalid⟩
    refine ⟨hown, ?_, hvalid⟩
    obtain ⟨entry, hentry, hblock⟩ := hindexed.mem_known (List.mem_append_right below
      (List.mem_singleton_self frame))
    apply restoresAt_of_listsSpent hlimits hentry hblock hmade _ (hlists _ hlookup)
    intro spent output houtput
    obtain ⟨item, hitem, patch, hpatch, hwritten⟩ := hgrounded.below.written houtput
    obtain ⟨lower, hlower, rfl⟩ := List.mem_map.mp hitem
    obtain ⟨source, hsource, rfl⟩ := List.mem_map.mp hpatch
    obtain ⟨known, hknown, hknownBlock⟩ := hindexed.mem_known
      (List.mem_append_left [frame] hlower)
    exact ⟨source, ⟨_, known, hknown, hknownBlock ▸ hsource⟩, hwritten⟩

/-- The last lost frame is popped. -/
theorem disconnect_lost (h : CatchesUp chain wallet shared (lost ++ [frame]) [] state)
    (hchain : Chain.Indexed genesis chain) (hlimits : Chain.WithinLimits chain)
    (hok : ∀ undo, wallet.blockUndo.lookup frame.item.hash = some undo →
      frame.item ∈ chain.blocks ∨ ¬ SpendsOwnOutput wallet.watched frame.item ∧
        ListsSpent chain wallet.watched frame.item undo) :
    CatchesUp chain (wallet.disconnectBlock frame.item.hash) shared lost []
      (revertAll (frame.undos Block.patches) state) := by
  have hframes : shared ++ (lost ++ [frame]) = shared ++ lost ++ [frame] :=
    (List.append_assoc _ _ _).symm
  have hmem : frame ∈ shared ++ (lost ++ [frame]) ++ [] := by simp
  have hgrounded := h.grounded
  have hindexed := h.indexed
  rw [List.append_nil, hframes] at hgrounded hindexed
  obtain ⟨hwithin, hrecord⟩ := h.disconnect_records hchain hlimits hmem
  obtain ⟨hwatched, hfiled, hundos, -⟩ := disconnectBlock_spec hwithin h.filed hrecord
  refine ⟨h.agree, ?_, hfiled, ?_, ?_, ?_, ?_, ?_⟩
  · intro outpoint hsettled
    rw [hwatched] at hsettled ⊢
    apply h.sees_disconnect hchain hlimits hframes (h.view outpoint hsettled)
    by_cases hactive : frame.item ∈ chain.blocks
    · left
      apply hsettled.not_touched (hindexed.active_at hchain List.getElem?_concat_length hactive)
      rw [List.length_append]
      exact Nat.le_add_right _ _
    · obtain ⟨undo, hundo⟩ := Option.ne_none_iff_exists'.mp
        (h.recorded frame (by simp))
      have hlists := (hok undo hundo).resolve_left hactive
      refine Or.inr ⟨⟨hlists.1, fun undo' hundo' ↦ ?_⟩, h.validated frame (by simp) hactive⟩
      rw [hundo] at hundo'
      exact Option.some.inj hundo' ▸ hlists.2
  · intro below hmem
    rw [hundos, if_neg (hindexed.top_ne below hmem)]
    apply h.recorded
    rw [hframes]
    exact List.mem_append_left _ hmem
  · intro hash undo hundo
    rw [hundos] at hundo
    rw [hwatched]
    split at hundo
    · cases hundo
    · rename_i hne
      obtain ⟨block, hfrom, hhash, hrest⟩ := h.records hash undo hundo
      refine ⟨block, hfrom.imp_right ?_, hhash, hrest⟩
      rintro ⟨below, hbelow, rfl⟩
      rcases List.mem_append.mp hbelow with hlost | hlast
      · exact ⟨below, hlost, rfl⟩
      · rw [List.mem_singleton.mp hlast] at hhash
        exact (hne hhash.symm).elim
  · exact fun below hbelow ↦ h.validated below (List.mem_append_left _ hbelow)
  · rw [List.append_nil]
    exact hgrounded.popped
  · rw [List.append_nil]
    exact hindexed.pop

/-- The last shared frame may be counted among the lost ones. -/
theorem unshare (h : CatchesUp chain wallet (shared ++ [frame]) [] [] state) :
    CatchesUp chain wallet shared [frame] [] state where
  agree := by
    have hagree := h.agree
    rw [List.map_append] at hagree
    exact (List.prefix_append _ _).trans hagree
  view := by
    intro outpoint hsettled
    refine h.view outpoint (hsettled.mono ?_)
    rw [List.length_append]
    exact Nat.le_add_right _ _
  filed := h.filed
  recorded := by
    intro below hbelow
    exact h.recorded below (by rwa [List.append_nil])
  records := by
    intro hash undo hundo
    obtain ⟨block, hfrom, hrest⟩ := h.records hash undo hundo
    exact ⟨block, hfrom.imp_right fun ⟨_, hnil, _⟩ ↦ (List.not_mem_nil hnil).elim, hrest⟩
  validated := by
    intro other hother hlost
    rw [List.mem_singleton.mp hother] at hlost
    refine (hlost (h.agree.subset ?_)).elim
    simp
  grounded := by
    have hgrounded := h.grounded
    rwa [List.append_nil] at hgrounded
  indexed := by
    have hindexed := h.indexed
    rwa [List.append_nil] at hindexed

end CatchesUp

/-- The stack can be divided so, with as many shared frames as there can be. -/
def UnderWay (chain : Chain) (wallet : Wallet) (ledger : Ledger) : Prop :=
  ∃ shared lost passing, ledger.frames = shared ++ lost ++ passing ∧
    (∀ frame, (lost ++ passing).head? = some frame →
      chain.blocks[shared.length]? ≠ some frame.item) ∧
        CatchesUp chain wallet shared lost passing ledger.state

omit [Crypto] in
/-- The frames that agree with a list of blocks, up to the first that does not. -/
theorem exists_shared (frames : List (Frame Block OutPoint UtxoEntry)) (blocks : List Block) :
    ∃ shared rest, frames = shared ++ rest ∧ shared.map Frame.item <+: blocks ∧
      ∀ frame, rest.head? = some frame → blocks[shared.length]? ≠ some frame.item := by
  induction frames generalizing blocks with
  | nil => exact ⟨[], [], rfl, List.nil_prefix, by simp⟩
  | cons frame frames ih =>
      by_cases hfirst : blocks.head? = some frame.item
      · obtain ⟨later, rfl⟩ := List.head?_eq_some_iff.mp hfirst
        obtain ⟨shared, rest, rfl, hagree, hdiverged⟩ := ih later
        exact ⟨frame :: shared, rest, rfl, List.cons_prefix_cons.mpr ⟨rfl, hagree⟩, hdiverged⟩
      · refine ⟨[], frame :: frames, rfl, List.nil_prefix, ?_⟩
        rintro other hother
        obtain rfl := Option.some.inj hother
        rwa [List.length_nil, ← List.head?_eq_getElem?]

/-- A wallet that tracks a stack is under way to any chain. -/
theorem Tracks.underWay (h : Tracks wallet ledger) (hindexed : FramesIndexed chain ledger) :
    UnderWay chain wallet ledger := by
  obtain ⟨frames, state⟩ := ledger
  obtain ⟨shared, lost, rfl, hagree, hdiverged⟩ := exists_shared frames chain.blocks
  refine ⟨shared, lost, [], (List.append_nil _).symm, by rwa [List.append_nil], hagree,
    fun outpoint _ ↦ h.view outpoint, h.filed, h.recorded, ?_,
    fun frame hframe _ ↦ h.validated frame (List.mem_append_right _ hframe),
    by rw [List.append_nil]; exact h.grounded, by rwa [List.append_nil]⟩
  intro hash undo hundo
  obtain ⟨frame, hframe, hhash, hrecord⟩ := h.records hash undo hundo
  refine ⟨frame.item, ?_, hhash, hrecord⟩
  rcases List.mem_append.mp hframe with hshared | hlost
  · exact Or.inl (hagree.subset (List.mem_map_of_mem hshared))
  · exact Or.inr ⟨frame, hlost, rfl⟩

namespace UnderWay

theorem blockByHash_eq (h : UnderWay chain wallet ledger)
    {frame : Frame Block OutPoint UtxoEntry} (hframe : frame ∈ ledger.frames) :
    chain.blockByHash frame.item.hash = some frame.item := by
  obtain ⟨shared, lost, passing, hframes, -, hcatches⟩ := h
  rw [hframes] at hframe
  obtain ⟨entry, hentry, hblock⟩ := hcatches.indexed.mem_known hframe
  rw [Chain.blockByHash, hentry, ← hblock]

/-- A wallet that is under way to the chain and at its stack tracks it. -/
theorem tracks (h : UnderWay chain wallet ledger) (hitems : ledger.items = chain.blocks)
    (hvalidated : ledger.Validated) : Tracks wallet ledger := by
  obtain ⟨frames, state⟩ := ledger
  obtain ⟨shared, lost, passing, hframes, hdiverged, hcatches⟩ := h
  obtain rfl : frames = shared ++ lost ++ passing := hframes
  have hnil : lost ++ passing = [] := by
    cases hrest : lost ++ passing with
    | nil => rfl
    | cons frame rest =>
        refine (hdiverged frame (by rw [hrest]; rfl) ?_).elim
        rw [← hitems, UndoStack.items_mk, List.append_assoc, hrest, List.map_append,
          List.getElem?_append_right (List.length_map _).le, List.length_map, Nat.sub_self]
        rfl
  obtain ⟨rfl, rfl⟩ := List.append_eq_nil_iff.mp hnil
  have hdrop : chain.blocks.drop shared.length = [] := by
    rw [← hitems, UndoStack.items_mk]
    simp
  refine ⟨?_, hcatches.filed, ?_, ?_, hcatches.grounded, hvalidated⟩
  · intro outpoint
    apply hcatches.view
    intro block hblock
    rw [hdrop] at hblock
    exact (List.not_mem_nil hblock).elim
  · intro frame hframe
    exact hcatches.recorded frame (by simpa using hframe)
  · intro hash undo hundo
    obtain ⟨block, hfrom, hhash, hrecord⟩ := hcatches.records hash undo hundo
    have hactive := hfrom.resolve_right fun ⟨_, hlost, _⟩ ↦ (List.not_mem_nil hlost).elim
    rw [← hitems] at hactive
    obtain ⟨frame, hframe, rfl⟩ := List.mem_map.mp hactive
    exact ⟨frame, hframe, hhash, hrecord⟩

variable (hchain : Chain.Indexed genesis chain) (hlimits : Chain.WithinLimits chain)

include hchain hlimits in
/-- A connect event that meets the condition. -/
theorem connect (h : UnderWay chain wallet ledger) {item block : Block}
    (hactive : chain.blocks[ledger.frames.length]? = some block)
    (hitem : ∃ entry, chain.known.lookup item.hash = some entry ∧ entry.block = item ∧
      entry.height = ledger.frames.length)
    (hsame : block.hash = item.hash → ¬ wallet.OverwritesHeld block)
    (hother : block.hash ≠ item.hash → ¬ wallet.CreatesHeld item) :
    UnderWay chain (wallet.connectBlock block) (ledger.push Block.patches item) := by
  obtain ⟨frames, state⟩ := ledger
  obtain ⟨shared, lost, passing, hframes, hdiverged, hcatches⟩ := h
  obtain rfl : frames = shared ++ lost ++ passing := hframes
  obtain ⟨entry, hentry, hblock, hheight⟩ := hchain.active_known _ block hactive
  have hwithin : Chain.validateBlockLimits block = .ok () := hblock ▸ hlimits _ entry hentry
  by_cases hnext : lost ++ passing = [] ∧ block = item
  · obtain ⟨hnil, rfl⟩ := hnext
    obtain ⟨rfl, rfl⟩ := List.append_eq_nil_iff.mp hnil
    simp only [List.append_nil] at hactive hitem
    refine ⟨shared ++ [⟨block, state⟩], [], [], by simp [UndoStack.push], by simp, ?_⟩
    exact hcatches.connect_shared hwithin hactive hitem (hsame rfl)
  · refine ⟨shared, lost, passing ++ [⟨item, state⟩], by simp [UndoStack.push], ?_, ?_⟩
    · intro frame hframe
      rw [← List.append_assoc] at hframe
      by_cases hnil : lost ++ passing = []
      · rw [hnil] at hframe
        obtain rfl := Option.some.inj hframe
        have hactive' : chain.blocks[shared.length]? = some block := by
          rwa [List.append_assoc, hnil, List.append_nil] at hactive
        rw [hactive']
        exact fun heq ↦ hnext ⟨hnil, Option.some.inj heq⟩
      · rw [List.head?_append_of_ne_nil _ hnil] at hframe
        exact hdiverged frame hframe
    · apply hcatches.connect_passing hwithin hactive hitem
      intro outpoint hsettled hclobbers
      by_contra hheld
      obtain ⟨patch, hpatch, hwrite⟩ := hclobbers.written
      obtain ⟨tx, htx, rfl⟩ := List.mem_map.mp hpatch
      by_cases hhash : block.hash = item.hash
      · obtain ⟨named, hnamed, hitemBlock, -⟩ := hitem
        have heq : block = item := by
          rw [hhash, hnamed] at hentry
          rw [← hblock, ← hitemBlock, Option.some.inj hentry]
        subst heq
        refine hsame rfl (overwrites_of_written ⟨_, List.mem_map_of_mem htx, hwrite⟩ ?_ hheld)
        rw [block.watchedPairs_snd]
        apply hsettled.not_touched hactive
        rw [List.length_append, List.length_append]
        omega
      · obtain ⟨created, hcreated, rfl⟩ := List.mem_map.mp hwrite
        exact hother hhash ⟨tx, htx, created, hcreated, Option.isSome_iff_ne_none.mpr hheld⟩

include hchain hlimits in
/-- A disconnect event that meets the condition. -/
theorem disconnect {frames : List (Frame Block OutPoint UtxoEntry)}
    {frame : Frame Block OutPoint UtxoEntry} {state : UtxoSet}
    (h : UnderWay chain wallet ⟨frames ++ [frame], state⟩)
    (hok : ∀ undo, wallet.blockUndo.lookup frame.item.hash = some undo →
      frame.item ∈ chain.blocks ∨ ¬ SpendsOwnOutput wallet.watched frame.item ∧
        ListsSpent chain wallet.watched frame.item undo) :
    UnderWay chain (wallet.disconnectBlock frame.item.hash)
      (UndoStack.popped Block.patches frames frame state) := by
  obtain ⟨shared, lost, passing, hframes, hdiverged, hcatches⟩ := h
  have hframes : frames ++ [frame] = shared ++ lost ++ passing := hframes
  rcases List.eq_nil_or_concat' passing with rfl | ⟨passing, last, rfl⟩
  · rcases List.eq_nil_or_concat' lost with rfl | ⟨lost, last, rfl⟩
    · rcases List.eq_nil_or_concat' shared with rfl | ⟨shared, last, rfl⟩
      · simp at hframes
      · simp only [List.append_nil] at hframes
        obtain ⟨rfl, hlast⟩ := List.append_inj' hframes rfl
        obtain rfl := (List.cons.inj hlast).1
        refine ⟨frames, [], [], by simp [UndoStack.popped], by simp, ?_⟩
        exact hcatches.unshare.disconnect_lost hchain hlimits hok
    · rw [List.append_nil, ← List.append_assoc] at hframes
      obtain ⟨rfl, hlast⟩ := List.append_inj' hframes rfl
      obtain rfl := (List.cons.inj hlast).1
      refine ⟨shared, lost, [], by simp [UndoStack.popped], ?_,
        hcatches.disconnect_lost hchain hlimits hok⟩
      intro below hbelow
      apply hdiverged below
      rw [List.append_nil] at hbelow ⊢
      rw [List.head?_append, hbelow]
      rfl
  · rw [← List.append_assoc] at hframes
    obtain ⟨rfl, hlast⟩ := List.append_inj' hframes rfl
    obtain rfl := (List.cons.inj hlast).1
    refine ⟨shared, lost, passing, rfl, ?_, hcatches.disconnect_passing hchain hlimits⟩
    intro below hbelow
    apply hdiverged below
    rw [← List.append_assoc, List.head?_append, hbelow]
    rfl

end UnderWay

/-! ## A batch of events -/

theorem applyEvents_cons (event : ChainEvent) (rest : List ChainEvent) {wallet' : Wallet}
    (h : applyEvents chain [event] wallet = (.ok (), wallet')) :
    applyEvents chain (event :: rest) wallet = applyEvents chain rest wallet' := by
  cases event with
  | blockConnected height hash count =>
      simp only [applyEvents] at h ⊢
      cases hblock : chain.activeBlockAt height with
      | none =>
          rw [hblock] at h
          cases h
      | some block =>
          rw [hblock] at h
          rw [← (Prod.mk.inj h).2]
  | blockDisconnected height hash => rw [← (Prod.mk.inj h).2]; rfl
  | chainReorg depth oldTip newTip => rw [← (Prod.mk.inj h).2]; rfl
  | orphanAdded hash size => rw [← (Prod.mk.inj h).2]; rfl
  | orphanEvicted hash reason => rw [← (Prod.mk.inj h).2]; rfl

/-- The events announce the moves from one stack to another, and the blocks
pushed are indexed. -/
structure Announces (chain : Chain) (events : List ChainEvent) (moves : List (Move Block))
    (ledger ledger' : Ledger) : Prop where
  run : UndoStack.Run Block.patches ledger moves ledger'
  events : events.filterMap ChainEvent.move? = moves.map (Move.map Block.hash)
  pushes : Chain.PushesIndexed chain moves

namespace Announces

variable {moves : List (Move Block)} {rest : List ChainEvent}

theorem connected {height count : ℕ} {hash : Hash256}
    (h : Announces chain (.blockConnected height hash count :: rest) moves ledger ledger') :
    height = ledger.frames.length ∧ ∃ (item : Block) (later : List (Move Block)),
      item.hash = hash ∧
        (∃ entry, chain.known.lookup item.hash = some entry ∧ entry.block = item ∧
          entry.height = ledger.frames.length) ∧
            Announces chain rest later (ledger.push Block.patches item) ledger' := by
  have hevents := h.events
  cases h.run with
  | nil => cases hevents
  | pop _ => cases (List.cons.inj hevents).1
  | @push _ _ later item hrest =>
      obtain ⟨hfirst, hlater⟩ := List.cons.inj hevents
      obtain ⟨hheight, hhash⟩ := Move.push.inj hfirst
      refine ⟨hheight, item, later, hhash.symm, h.pushes _ item List.mem_cons_self, hrest, hlater,
        ?_⟩
      exact fun depth other hmem ↦ h.pushes depth other (List.mem_cons_of_mem _ hmem)

theorem disconnected {height : ℕ} {hash : Hash256}
    (h : Announces chain (.blockDisconnected height hash :: rest) moves ledger ledger') :
    ∃ frames frame state later, ledger = ⟨frames ++ [frame], state⟩ ∧ frame.item.hash = hash ∧
      Announces chain rest later (UndoStack.popped Block.patches frames frame state) ledger' := by
  have hevents := h.events
  cases h.run with
  | nil => cases hevents
  | push _ _ => cases (List.cons.inj hevents).1
  | @pop frames frame state _ later hrest =>
      obtain ⟨hfirst, hlater⟩ := List.cons.inj hevents
      obtain ⟨-, hhash⟩ := Move.pop.inj hfirst
      refine ⟨frames, frame, state, later, rfl, hhash.symm, hrest, hlater, ?_⟩
      exact fun depth other hmem ↦ h.pushes depth other (List.mem_cons_of_mem _ hmem)

end Announces

/-- A wallet that is under way and applies a good batch is under way at the stack
that the announced moves lead to. -/
theorem UnderWay.applyEvents {events : List ChainEvent} {moves : List (Move Block)}
    (hchain : Chain.Indexed genesis chain) (hlimits : Chain.WithinLimits chain)
    (h : UnderWay chain wallet ledger) (hannounces : Announces chain events moves ledger ledger')
    (hok : BatchOk chain events wallet) :
    (Wallet.applyEvents chain events wallet).1 = .ok () ∧
      UnderWay chain (Wallet.applyEvents chain events wallet).2 ledger' := by
  induction events generalizing wallet ledger moves with
  | nil =>
      obtain rfl : moves = [] := List.map_eq_nil_iff.mp hannounces.events.symm
      cases hannounces.run
      exact ⟨rfl, h⟩
  | cons event rest ih =>
      obtain ⟨hevent, hrest⟩ := hok
      have hstill : event.move? = none →
          Wallet.applyEvents chain [event] wallet = (.ok (), wallet) →
            (Wallet.applyEvents chain (event :: rest) wallet).1 = .ok () ∧
              UnderWay chain (Wallet.applyEvents chain (event :: rest) wallet).2 ledger' := by
        intro hmove hone
        rw [hone] at hrest
        rw [applyEvents_cons event rest hone]
        refine ih h ⟨hannounces.run, ?_, hannounces.pushes⟩ hrest
        have hevents := hannounces.events
        rwa [List.filterMap_cons_none hmove] at hevents
      cases event with
      | blockConnected height hash count =>
          obtain ⟨rfl, item, later, rfl, hitem, hnext⟩ := hannounces.connected
          obtain ⟨block, hactive, hsame, hother⟩ := hevent
          have hfound : chain.blockByHash item.hash = some item := by
            obtain ⟨entry, hentry, hblock, -⟩ := hitem
            rw [Chain.blockByHash, hentry, ← hblock]
          have hone : Wallet.applyEvents chain
              [.blockConnected ledger.frames.length item.hash count] wallet =
                (.ok (), wallet.connectBlock block) := by
            simp only [Wallet.applyEvents, hactive]
          rw [hone] at hrest
          rw [applyEvents_cons _ rest hone]
          refine ih (h.connect hchain hlimits hactive hitem hsame fun hne ↦ ?_) hnext hrest
          exact hother hne item hfound
      | blockDisconnected height hash =>
          obtain ⟨frames, frame, state, later, rfl, rfl, hnext⟩ := hannounces.disconnected
          have hfound := h.blockByHash_eq (List.mem_append_right frames
            (List.mem_singleton_self frame))
          have hone : Wallet.applyEvents chain [.blockDisconnected height frame.item.hash] wallet =
              (.ok (), wallet.disconnectBlock frame.item.hash) := rfl
          rw [hone] at hrest
          rw [applyEvents_cons _ rest hone]
          refine ih (h.disconnect hchain hlimits fun undo ↦ ?_) hnext hrest
          exact hevent frame.item undo hfound
      | chainReorg depth oldTip newTip => exact hstill rfl rfl
      | orphanAdded added size => exact hstill rfl rfl
      | orphanEvicted evicted reason => exact hstill rfl rfl

end Wallet

end Bitrst
