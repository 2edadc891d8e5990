import Bitrst.BlockTransactions
import Bitrst.MempoolResync
import Bitrst.Support.Total

/-!
# No value is created outside coinbases

A valid transaction spends distinct outputs and pays no more than they are
worth, so the transactions of a block add at most what its coinbases pay.  The
active chain is a stack of blocks, each validated on the outputs it was
connected on, and reverting leaves a part of the outputs below; so no number of
reorganisations makes the unspent outputs worth more than the active coinbases.
-/

namespace Bitrst

open Support

variable [Crypto]

/-! ## The value of the unspent outputs -/

/-- The sum of the values of all unspent outputs, in exact arithmetic. -/
def UtxoSet.value (utxo : UtxoSet) : ℕ := utxo.total fun entry ↦ entry.value.toNat

/-- What the transaction pays if it is a coinbase. -/
def Transaction.coinbaseValue (tx : Transaction) : ℕ :=
  if tx.isCoinbase then outputsValue tx.outputs else 0

/-- The sum of the output values of the coinbases of a block. -/
def Block.coinbaseValue (block : Block) : ℕ :=
  (block.transactions.map Transaction.coinbaseValue).sum

omit [Crypto] in
theorem UtxoSet.valueAt_eq_weightAt (utxo : UtxoSet) (outpoint : OutPoint) :
    utxo.valueAt outpoint = utxo.weightAt (fun entry ↦ entry.value.toNat) outpoint := by
  simp only [UtxoSet.valueAt, UtxoSet.getValue, HashMap.weightAt, Option.map_map]
  rfl

/-- The entries that a transaction creates are worth its outputs. -/
theorem Transaction.sum_createdEntries (tx : Transaction) :
    (tx.createdEntries.map fun created ↦ created.2.value.toNat).sum = outputsValue tx.outputs := by
  have hvalues : tx.createdEntries.map (fun created ↦ created.2.value.toNat) =
      (tx.outputs.zipIdx.map Prod.fst).map fun output ↦ output.value.toNat := by
    simp only [createdEntries, List.map_map]
    rfl
  rw [hvalues, List.zipIdx_map_fst, outputsValue]

/-- Only a coinbase adds value. -/
theorem UtxoSet.value_applyTransaction_le {utxo : UtxoSet} {tx : Transaction}
    (hdistinct : tx.spentOutPoints.Nodup) (hvalid : utxo.validateTransaction tx = .ok ()) :
    (utxo.applyTransaction tx).value ≤ utxo.value + tx.coinbaseValue := by
  have happly : (utxo.applyTransaction tx).value +
      (tx.spentOutPoints.map fun outpoint ↦ utxo.valueAt outpoint).sum ≤
        utxo.value + outputsValue tx.outputs := by
    simp only [UtxoSet.valueAt_eq_weightAt, ← tx.sum_createdEntries]
    exact tx.patch.total_apply_add_le utxo hdistinct
  unfold Transaction.coinbaseValue
  cases hcoinbase : tx.isCoinbase with
  | true =>
      rw [if_pos rfl]
      exact (Nat.le_add_right _ _).trans happly
  | false =>
      have hpays := UtxoSet.validateTransaction_pays hcoinbase hvalid
      have hspent : tx.spentOutPoints = tx.inputs.map TxInput.outPoint := by
        simp [Transaction.spentOutPoints, hcoinbase]
      rw [hspent, List.map_map] at happly
      have hsum : outputsValue tx.outputs ≤
          (tx.inputs.map ((fun outpoint ↦ utxo.valueAt outpoint) ∘ TxInput.outPoint)).sum := hpays
      rw [if_neg Bool.false_ne_true]
      omega

theorem UtxoSet.value_applyTransactions_le {txs : List Transaction} {utxo : UtxoSet}
    (hdistinct : (txs.flatMap Transaction.spentOutPoints).Nodup)
    (hvalid : Transaction.AllValidOn txs utxo) :
    (utxo.applyTransactions txs).value ≤
      utxo.value + (txs.map Transaction.coinbaseValue).sum := by
  induction txs generalizing utxo with
  | nil => exact Nat.le_refl _
  | cons tx rest ih =>
      rw [List.flatMap_cons, List.nodup_append] at hdistinct
      have hfirst := UtxoSet.value_applyTransaction_le hdistinct.1 hvalid.1.1
      have hrest : ((utxo.applyTransaction tx).applyTransactions rest).value ≤ _ :=
        ih hdistinct.2.1 hvalid.2
      rw [List.map_cons, List.sum_cons, ← Nat.add_assoc]
      exact hrest.trans (Nat.add_le_add_right hfirst _)

/-- A valid block adds at most what its coinbases pay. -/
theorem Block.value_le {block : Block} {utxo : UtxoSet}
    (hvalid : Chain.validateBlockTransactionsForUtxo block utxo = .ok ()) :
    (utxo.applyTransactions block.transactions).value ≤ utxo.value + block.coinbaseValue := by
  obtain ⟨hdistinct, hall⟩ := Chain.validateBlockTransactionsForUtxo_ok_iff.mp hvalid
  exact UtxoSet.value_applyTransactions_le hdistinct hall

/-! ## The stack of validated blocks -/

/-- The value of the state of a validated stack is bounded by its coinbases. -/
theorem Ledger.Validated.value_le {ledger : Ledger} (h : ledger.Validated)
    (hgrounded : UndoStack.Grounded Block.patches ledger) :
    UtxoSet.value ledger.state ≤ (ledger.items.map Block.coinbaseValue).sum := by
  apply hgrounded.total_le
  intro frame hframe
  have hblock := Block.value_le (h frame hframe)
  rw [UtxoSet.applyTransactions_eq_applyAll] at hblock
  exact hblock

namespace Chain

variable [Features] {genesis : Block} {chain chain' : Chain}

/-- The chain follows a validated stack that stands on the empty set. -/
def Validated (chain : Chain) : Prop :=
  ∃ ledger, Follows chain ledger ∧ UndoStack.Grounded Block.patches ledger ∧ ledger.Validated

omit [Features] in
theorem Validated.congr (h : Validated chain) (hblocks : chain'.blocks = chain.blocks)
    (hutxo : chain'.utxo = chain.utxo)
    (hknown : ∀ b ∈ chain.blocks, chain'.known.lookup b.hash = chain.known.lookup b.hash) :
    Validated chain' := by
  obtain ⟨ledger, hfollows, hrest⟩ := h
  exact ⟨ledger, hfollows.congr hblocks hutxo hknown, hrest⟩

theorem connectAlone_validated (h : Indexed genesis chain) (hvalidated : Validated chain)
    (order : OrphanOrder) (block : Block) :
    Validated (connectAlone order block chain).2 := by
  obtain ⟨ledger, hfollows, hgrounded, hledger⟩ := hvalidated
  rcases connectAlone_moved h order block hfollows with ⟨moves, ledger', hmoved⟩ | ⟨-, hkept⟩
  · exact ⟨ledger', hmoved.follows, hgrounded.run hmoved.run, hmoved.validated hledger⟩
  · exact ⟨ledger, hkept, hgrounded, hledger⟩

theorem withJournalCapacities_validated {networkTime : UInt32} {capacity : ℕ}
    (h : withJournalCapacities genesis networkTime capacity = .ok chain) : Validated chain := by
  refine ⟨_, (withJournalCapacities_follows h).1, UndoStack.Grounded.nil.push genesis, ?_⟩
  have hnil : Ledger.Validated ⟨[], ∅⟩ := fun _ hframe ↦ nomatch hframe
  exact hnil.push (validateBlockForParent_ok_iff.mp (withJournalCapacities_checked h).2).2

theorem Reachable.validated (h : Reachable genesis chain) : Validated chain :=
  (h.invariant (fun chain ↦ Coherent genesis chain ∧ Validated chain)
    (fun _ _ _ created ↦
      ⟨withJournalCapacities_coherent created, withJournalCapacities_validated created⟩)
    (by
      rintro c _ ⟨hc, hvalidated⟩ hfewer
      refine ⟨hfewer.coherent hc, ?_⟩
      obtain ⟨orphans, rfl, -⟩ := hfewer
      exact hvalidated.congr rfl rfl fun _ _ ↦ rfl)
    (fun order _ block hc _ ↦ ⟨connectAlone_coherent hc.1 order block,
      connectAlone_validated hc.1.indexed hc.2 order block⟩)
    (fun _ _ hc ↦ ⟨hc.1.congr rfl rfl rfl rfl, hc.2.congr rfl rfl fun _ _ ↦ rfl⟩)
    (fun _ _ hc ↦ ⟨hc.1.congr rfl rfl rfl rfl, hc.2.congr rfl rfl fun _ _ ↦ rfl⟩)).2

/-- In every state that a run reaches the unspent outputs are worth at most what the coinbases of
the active blocks pay. -/
theorem reachable_value_le (h : Reachable genesis chain) :
    UtxoSet.value chain.utxo ≤ (chain.blocks.map Block.coinbaseValue).sum := by
  obtain ⟨ledger, hfollows, hgrounded, hvalidated⟩ := h.validated
  rw [hfollows.utxo, hfollows.blocks]
  exact hvalidated.value_le hgrounded

end Chain

end Bitrst

namespace Bitrst.Sample

theorem forked_value_le : UtxoSet.value (forked (grown first)).utxo ≤
    ((forked (grown first)).blocks.map Block.coinbaseValue).sum :=
  Chain.reachable_value_le forked_reachable

end Bitrst.Sample
