import Bitrst.Support.FilteredView
import Bitrst.Wallet
import Mathlib.Algebra.Order.BigOperators.Group.List

/-!
# The wallet as a view of the unspent outputs

Each transaction changes the outputs of a wallet by a patch of its own, and the
undo data of a block is the joint undo record of the patches of its
transactions.  Within the limits of a block, the patches of the wallet watch
those of the chain.
-/

namespace Bitrst

open Support

/-- The entry of the wallet for an unspent output, if it pays a watched hash. -/
def watchedEntry (watched : Finset Hash160) (outpoint : OutPoint) (entry : UtxoEntry) :
    Option WalletUtxo :=
  if Wallet.isWatched watched entry.scriptPubkey then
    some ⟨outpoint, entry.value, entry.scriptPubkey⟩
  else none

/-- The outpoint that the input of a coinbase names. -/
def coinbaseOutPoint : OutPoint := ⟨zeroHash, 0xffffffff⟩

/-- A wallet removes what the inputs of a coinbase name, too, where there is nothing. -/
def seenEntry (watched : Finset Hash160) (outpoint : OutPoint) (entry : UtxoEntry) :
    Option WalletUtxo :=
  if outpoint = coinbaseOutPoint then none else watchedEntry watched outpoint entry

variable [Crypto]

/-- What a transaction does to the outputs of a wallet. -/
def Transaction.walletPatch (watched : Finset Hash160) (tx : Transaction) :
    Patch OutPoint WalletUtxo where
  spends := tx.inputs.map TxInput.outPoint
  writes := tx.createdEntries.filterMap fun created ↦
    (watchedEntry watched created.1 created.2).map fun utxo ↦ (created.1, utxo)

def Block.walletPatches (watched : Finset Hash160) (block : Block) :
    List (Patch OutPoint WalletUtxo) :=
  block.transactions.map (Transaction.walletPatch watched)

/-- The patches of the chain and of the wallet, transaction by transaction. -/
def Block.watchedPairs (watched : Finset Hash160) (block : Block) :
    List (Patch OutPoint UtxoEntry × Patch OutPoint WalletUtxo) :=
  block.transactions.map fun tx ↦ (tx.patch, tx.walletPatch watched)

/-! ## Patches within the limits of a block -/

theorem Transaction.mem_createdEntries {tx : Transaction} {outpoint : OutPoint}
    {entry : UtxoEntry} :
    (outpoint, entry) ∈ tx.createdEntries ↔ ∃ (i : ℕ) (output : TxOutput),
      tx.outputs[i]? = some output ∧ outpoint = ⟨tx.txid, UInt32.ofNat i⟩ ∧
        entry = ⟨output.value, output.scriptPubkey⟩ := by
  unfold createdEntries
  rw [List.mem_map]
  constructor
  · rintro ⟨⟨output, i⟩, hmem, heq⟩
    obtain ⟨rfl, rfl⟩ := Prod.mk.inj heq
    exact ⟨i, output, List.mk_mem_zipIdx_iff_getElem?.mp hmem, rfl, rfl⟩
  · rintro ⟨i, output, hi, rfl, rfl⟩
    exact ⟨(output, i), List.mk_mem_zipIdx_iff_getElem?.mpr hi, rfl⟩

/-- No output is created under the outpoint that coinbases name. -/
theorem Transaction.created_ne_coinbase {tx : Transaction} (hfew : tx.outputs.length < 0xffffffff)
    {outpoint : OutPoint} {entry : UtxoEntry} (hmem : (outpoint, entry) ∈ tx.createdEntries) :
    outpoint ≠ coinbaseOutPoint := by
  rintro rfl
  obtain ⟨i, output, hi, hoi, -⟩ := mem_createdEntries.mp hmem
  have hlt := (List.getElem?_eq_some_iff.mp hi).1.trans hfew
  have hcast : (0xffffffff : UInt32) = UInt32.ofNat i := congrArg OutPoint.index hoi
  have hnat := congrArg UInt32.toNat hcast
  rw [UInt32.toNat_ofNat'] at hnat
  have hval : (0xffffffff : UInt32).toNat = 0xffffffff := rfl
  omega

omit [Crypto] in
/-- Only the input of a coinbase is not spent, and it names this one outpoint. -/
theorem Transaction.eq_coinbase_of_not_spent {tx : Transaction} {outpoint : OutPoint}
    (hmem : outpoint ∈ tx.inputs.map TxInput.outPoint) (hnot : outpoint ∉ tx.spentOutPoints) :
    outpoint = coinbaseOutPoint := by
  have hiscoinbase : tx.isCoinbase = true := by
    by_contra hcoinbase
    apply hnot
    rwa [spentOutPoints, if_neg hcoinbase]
  obtain ⟨input, hinput, rfl⟩ := List.mem_map.mp hmem
  unfold isCoinbase at hiscoinbase
  split at hiscoinbase
  · rename_i only hinputs
    rw [hinputs] at hinput
    obtain rfl := List.mem_singleton.mp hinput
    simp only [Bool.and_eq_true, beq_iff_eq] at hiscoinbase
    rw [TxInput.outPoint, hiscoinbase.1, hiscoinbase.2]
    rfl
  · cases hiscoinbase

theorem Transaction.patch_watches (watched : Finset Hash160) {tx : Transaction}
    (hfew : tx.outputs.length < 0xffffffff) :
    Watches (seenEntry watched) tx.patch (tx.walletPatch watched) := by
  refine ⟨?_, ?_, ?_, ?_⟩
  · refine List.filterMap_congr fun created hcreated ↦ ?_
    rw [seenEntry, if_neg (created_ne_coinbase hfew hcreated)]
  · intro outpoint entry entry' hmem hmem'
    obtain ⟨i, output, hi, rfl, rfl⟩ := mem_createdEntries.mp hmem
    obtain ⟨j, output', hj, hij, rfl⟩ := mem_createdEntries.mp hmem'
    have hcast := congrArg (fun o : OutPoint ↦ o.index.toNat) hij
    simp only [UInt32.toNat_ofNat'] at hcast
    have hi' := (List.getElem?_eq_some_iff.mp hi).1.trans hfew
    have hj' := (List.getElem?_eq_some_iff.mp hj).1.trans hfew
    obtain rfl : i = j := by omega
    rw [hi] at hj
    rw [Option.some.inj hj]
  · exact fun outpoint hmem ↦ mem_spentOutPoints hmem
  · intro outpoint hmem hnot entry
    rw [seenEntry, if_pos (eq_coinbase_of_not_spent hmem hnot)]

omit [Crypto] in
/-- A block within the limits has no transaction with very many outputs. -/
theorem Block.length_outputs_lt {block : Block}
    (hlimits : Chain.validateBlockLimits block = .ok ()) {tx : Transaction}
    (htx : tx ∈ block.transactions) : tx.outputs.length < 0xffffffff := by
  have hsize : block.serializedSize ≤ maxBlockSerializedSize := by
    unfold Chain.validateBlockLimits at hlimits
    split at hlimits
    · cases hlimits
    · omega
  have htxSize : tx.serializedSize ≤ (block.transactions.map Transaction.serializedSize).sum :=
    List.le_sum_of_mem (List.mem_map_of_mem htx)
  have houtputs := tx.length_outputs_le_serializedSize
  unfold Block.serializedSize maxBlockSerializedSize at hsize
  omega

theorem Block.watchedPairs_watch (watched : Finset Hash160) {block : Block}
    (hlimits : Chain.validateBlockLimits block = .ok ()) :
    ∀ pair ∈ block.watchedPairs watched, Watches (seenEntry watched) pair.1 pair.2 := by
  intro pair hpair
  obtain ⟨tx, htx, rfl⟩ := List.mem_map.mp hpair
  exact tx.patch_watches watched (Block.length_outputs_lt hlimits htx)

theorem Block.watchedPairs_fst (watched : Finset Hash160) (block : Block) :
    (block.watchedPairs watched).map Prod.fst = block.transactions.map Transaction.patch := by
  rw [watchedPairs, List.map_map]
  rfl

theorem Block.watchedPairs_snd (watched : Finset Hash160) (block : Block) :
    (block.watchedPairs watched).map Prod.snd = block.walletPatches watched := by
  rw [watchedPairs, List.map_map]
  rfl

namespace Wallet

/-! ## The loops of the wallet are patches -/

omit [Crypto] in
theorem removeInputs_eq (inputs : List TxInput) (utxos : HashMap OutPoint WalletUtxo)
    (undo : WalletBlockUndo) :
    removeInputs inputs (utxos, undo) =
      (utxos.eraseAll (inputs.map TxInput.outPoint),
        ⟨undo.created, undo.removed ++
          (recorded utxos (inputs.map TxInput.outPoint)).map Prod.snd⟩) := by
  induction inputs generalizing utxos undo with
  | nil => simp [removeInputs, recorded]
  | cons input rest ih =>
      rw [removeInputs, List.map_cons, recorded, HashMap.eraseAll_cons]
      cases hlookup : utxos.lookup input.outPoint with
      | none =>
          have hsame : Finmap.erase input.outPoint utxos = utxos := by
            refine Finmap.ext_lookup fun k ↦ ?_
            rw [HashMap.lookup_erase_ite]
            split
            · rename_i heq
              rw [heq, hlookup]
            · rfl
          simp only [ih, hsame]
      | some utxo => simp [ih]

omit [Crypto] in
theorem insertOutputs_eq (watched : Finset Hash160) (txid : Hash256)
    (outputs : List (TxOutput × ℕ)) (utxos : HashMap OutPoint WalletUtxo)
    (undo : WalletBlockUndo) :
    insertOutputs watched txid outputs (utxos, undo) =
      (utxos.insertAll (outputs.filterMap fun indexed ↦
          (watchedEntry watched ⟨txid, UInt32.ofNat indexed.2⟩
            ⟨indexed.1.value, indexed.1.scriptPubkey⟩).map fun utxo ↦ (utxo.outpoint, utxo)),
        ⟨undo.created ++ (outputs.filterMap fun indexed ↦
          (watchedEntry watched ⟨txid, UInt32.ofNat indexed.2⟩
            ⟨indexed.1.value, indexed.1.scriptPubkey⟩).map WalletUtxo.outpoint),
          undo.removed⟩) := by
  induction outputs generalizing utxos undo with
  | nil => simp [insertOutputs]
  | cons indexed rest ih =>
      obtain ⟨output, index⟩ := indexed
      rw [insertOutputs]
      split
      · rename_i hwatched
        simp [ih, watchedEntry, hwatched]
      · rename_i hwatched
        simp [ih, watchedEntry, hwatched]

theorem connectTransaction_eq (watched : Finset Hash160) (utxos : HashMap OutPoint WalletUtxo)
    (undo : WalletBlockUndo) (tx : Transaction) :
    connectTransaction watched (utxos, undo) tx =
      ((tx.walletPatch watched).apply utxos,
        ⟨undo.created ++ ((tx.walletPatch watched).undo utxos).created,
          undo.removed ++ ((tx.walletPatch watched).undo utxos).removed.map Prod.snd⟩) := by
  have hwrites : (tx.walletPatch watched).writes = tx.outputs.zipIdx.filterMap fun indexed ↦
      (watchedEntry watched ⟨tx.txid, UInt32.ofNat indexed.2⟩
        ⟨indexed.1.value, indexed.1.scriptPubkey⟩).map fun utxo ↦ (utxo.outpoint, utxo) := by
    change (tx.createdEntries.filterMap _) = _
    rw [Transaction.createdEntries, List.filterMap_map]
    refine List.filterMap_congr fun indexed _ ↦ ?_
    unfold watchedEntry
    simp only [Function.comp_apply]
    split <;> rfl
  have hkeys : (tx.walletPatch watched).writes.map Prod.fst =
      tx.outputs.zipIdx.filterMap fun indexed ↦
        (watchedEntry watched ⟨tx.txid, UInt32.ofNat indexed.2⟩
          ⟨indexed.1.value, indexed.1.scriptPubkey⟩).map WalletUtxo.outpoint := by
    rw [hwrites, List.map_filterMap]
    refine List.filterMap_congr fun indexed _ ↦ ?_
    rw [Option.map_map]
    rfl
  unfold connectTransaction
  rw [removeInputs_eq, insertOutputs_eq, ← hwrites, ← hkeys]
  rfl

/-- The undo data of a block connected on top of `utxos`. -/
def recordOf (watched : Finset Hash160) (block : Block) (utxos : HashMap OutPoint WalletUtxo) :
    WalletBlockUndo :=
  ⟨(jointUndo (block.walletPatches watched) utxos).created,
    (jointUndo (block.walletPatches watched) utxos).removed.map Prod.snd⟩

/-- Connecting a block applies its patches and keeps their joint undo record. -/
theorem connectBlock_eq (wallet : Wallet) (block : Block) :
    wallet.connectBlock block =
      { wallet with
        utxos := applyAll (block.walletPatches wallet.watched) wallet.utxos
        blockUndo := Finmap.insert block.hash (recordOf wallet.watched block wallet.utxos)
          wallet.blockUndo } := by
  have hfold : ∀ (txs : List Transaction) (utxos : HashMap OutPoint WalletUtxo)
      (undo : WalletBlockUndo),
      txs.foldl (connectTransaction wallet.watched) (utxos, undo) =
        (applyAll (txs.map (Transaction.walletPatch wallet.watched)) utxos,
          ⟨undo.created ++
              (jointUndo (txs.map (Transaction.walletPatch wallet.watched)) utxos).created,
            undo.removed ++ (jointUndo (txs.map (Transaction.walletPatch wallet.watched))
              utxos).removed.map Prod.snd⟩) := by
    intro txs
    induction txs with
    | nil =>
        intro utxos undo
        simp [jointUndo]
    | cons tx rest ih =>
        intro utxos undo
        rw [List.foldl_cons, connectTransaction_eq, ih]
        simp [jointUndo]
  unfold connectBlock
  rw [hfold]
  rfl

/-! ## Disconnecting a block -/

omit [Crypto] in
/-- An output kept under its own outpoint, which is not the one that coinbases name. -/
def Filed (outpoint : OutPoint) (utxo : WalletUtxo) : Prop :=
  utxo.outpoint = outpoint ∧ outpoint ≠ coinbaseOutPoint

/-- What a block within the limits writes is filed. -/
theorem filed_of_written (watched : Finset Hash160) {block : Block}
    (hlimits : Chain.validateBlockLimits block = .ok ()) :
    ∀ patch ∈ block.walletPatches watched, ∀ binding ∈ patch.writes,
      Filed binding.1 binding.2 := by
  intro patch hpatch binding hbinding
  obtain ⟨tx, htx, rfl⟩ := List.mem_map.mp hpatch
  obtain ⟨created, hcreated, hwritten⟩ := List.mem_filterMap.mp hbinding
  obtain ⟨utxo, hutxo, rfl⟩ := Option.map_eq_some_iff.mp hwritten
  refine ⟨?_, Transaction.created_ne_coinbase (Block.length_outputs_lt hlimits htx) hcreated⟩
  unfold watchedEntry at hutxo
  split at hutxo
  · rw [← Option.some.inj hutxo]
  · cases hutxo

/-- Disconnecting a block reverts the joint undo record made when it was connected. -/
theorem disconnectBlock_eq (wallet : Wallet) {block : Block} {utxos : HashMap OutPoint WalletUtxo}
    (hlimits : Chain.validateBlockLimits block = .ok ()) (hfiled : OfKind Filed utxos)
    (hrecord : wallet.blockUndo.lookup block.hash = some (recordOf wallet.watched block utxos)) :
    wallet.disconnectBlock block.hash =
      { wallet with
        blockUndo := Finmap.erase block.hash wallet.blockUndo
        utxos := (jointUndo (block.walletPatches wallet.watched) utxos).revert wallet.utxos } := by
  have hinsert : ∀ (bindings : List (OutPoint × WalletUtxo)) (base : HashMap OutPoint WalletUtxo),
      (∀ pair ∈ bindings, pair.2.outpoint = pair.1) →
        (bindings.map Prod.snd).foldl (fun utxos utxo ↦ Finmap.insert utxo.outpoint utxo utxos)
          base = base.insertAll bindings := by
    intro bindings
    induction bindings with
    | nil => exact fun _ _ ↦ rfl
    | cons pair rest ih =>
        intro base hpairs
        rw [List.map_cons, List.foldl_cons, hpairs pair List.mem_cons_self,
          ih _ fun pair hpair ↦ hpairs pair (List.mem_cons_of_mem _ hpair)]
        rfl
  unfold disconnectBlock
  rw [hrecord]
  simp only [recordOf]
  have hremoved : ∀ pair ∈ (jointUndo (block.walletPatches wallet.watched) utxos).removed,
      pair.2.outpoint = pair.1 := fun pair hpair ↦
    (hfiled.jointUndo_removed (filed_of_written wallet.watched hlimits) pair hpair).1
  rw [hinsert _ _ hremoved]
  rfl

end Wallet

end Bitrst
