import Bitrst.Script
import Bitrst.Support.UndoLog

/-!
# The set of unspent outputs

`utxo.rs` over the undo log of finite maps: a transaction is a patch that
spends its inputs and writes its outputs, and `TxUndo` is the undo record of
that patch.
-/

namespace Bitrst

open Support

structure OutPoint where
  txid : Hash256
  index : UInt32
  deriving DecidableEq

structure UtxoEntry where
  value : UInt64
  scriptPubkey : Bytes
  deriving DecidableEq

abbrev UtxoSet := HashMap OutPoint UtxoEntry

/-- `removed` and `created` of the source. -/
abbrev TxUndo := Undo OutPoint UtxoEntry

inductive UtxoError
  | missingInput (txid : Hash256) (index : UInt32)
  | negativeOutputValue
  | valueOverflow
  | inputOutputMismatch (inputs outputs : UInt64)
  | duplicateSpend (txid : Hash256) (index : UInt32)
  deriving DecidableEq

def TxInput.outPoint (input : TxInput) : OutPoint := ⟨input.previousOutput, input.index⟩

namespace Transaction

/-- The outpoints that `apply_transaction` removes; a coinbase removes none. -/
def spentOutPoints (tx : Transaction) : List OutPoint :=
  if tx.isCoinbase then [] else tx.inputs.map TxInput.outPoint

theorem mem_spentOutPoints {tx : Transaction} {outpoint : OutPoint}
    (h : outpoint ∈ tx.spentOutPoints) : outpoint ∈ tx.inputs.map TxInput.outPoint := by
  unfold spentOutPoints at h
  split at h
  · cases h
  · exact h

/-- The entries that `apply_transaction` inserts, the output index cast to `u32`. -/
def createdEntries [Crypto] (tx : Transaction) : List (OutPoint × UtxoEntry) :=
  tx.outputs.zipIdx.map fun indexed ↦
    (⟨tx.txid, UInt32.ofNat indexed.2⟩, ⟨indexed.1.value, indexed.1.scriptPubkey⟩)

def patch [Crypto] (tx : Transaction) : Patch OutPoint UtxoEntry where
  spends := tx.spentOutPoints
  writes := tx.createdEntries

end Transaction

namespace UtxoSet

variable [Crypto]

def getValue (utxo : UtxoSet) (outpoint : OutPoint) : Option UInt64 :=
  (utxo.lookup outpoint).map UtxoEntry.value

/-- The checked sum of the spent values. -/
def inputSum (utxo : UtxoSet) : List TxInput → UInt64 → Except UtxoError UInt64
  | [], sumIn => .ok sumIn
  | input :: rest, sumIn =>
      match getValue utxo input.outPoint with
      | none => .error (.missingInput input.previousOutput input.index)
      | some value =>
          match checkedAddU64 sumIn value with
          | none => .error .valueOverflow
          | some sumIn => inputSum utxo rest sumIn

def outputSumLoop : List TxOutput → UInt64 → Except UtxoError UInt64
  | [], sumOut => .ok sumOut
  | output :: rest, sumOut =>
      match checkedAddU64 sumOut output.value with
      | none => .error .valueOverflow
      | some sumOut => outputSumLoop rest sumOut

def outputSum (tx : Transaction) : Except UtxoError UInt64 := outputSumLoop tx.outputs 0

def validateTransaction (utxo : UtxoSet) (tx : Transaction) : Except UtxoError Unit := do
  if tx.isCoinbase then
    let _ ← outputSum tx
    .ok ()
  else
    let sumIn ← inputSum utxo tx.inputs 0
    let sumOut ← outputSum tx
    if sumIn < sumOut then .error (.inputOutputMismatch sumIn sumOut) else .ok ()

def applyTransaction (utxo : UtxoSet) (tx : Transaction) : UtxoSet := tx.patch.apply utxo

/-- The undo data that `apply_transaction` returns. -/
def transactionUndo (utxo : UtxoSet) (tx : Transaction) : TxUndo := tx.patch.undo utxo

def disconnectUndo (utxo : UtxoSet) (undo : TxUndo) : UtxoSet := undo.revert utxo

/-- Every transaction of a list applied in order. -/
def applyTransactions (utxo : UtxoSet) (txs : List Transaction) : UtxoSet :=
  txs.foldl applyTransaction utxo

/-- The undo data of a list of transactions applied in order. -/
def transactionUndos (utxo : UtxoSet) : List Transaction → List TxUndo
  | [] => []
  | tx :: rest => transactionUndo utxo tx :: transactionUndos (applyTransaction utxo tx) rest

theorem applyTransactions_eq_applyAll (utxo : UtxoSet) (txs : List Transaction) :
    applyTransactions utxo txs = applyAll (txs.map Transaction.patch) utxo := by
  rw [applyTransactions, applyAll, List.foldl_map]
  rfl

theorem transactionUndos_eq_undos (utxo : UtxoSet) (txs : List Transaction) :
    transactionUndos utxo txs = undos (txs.map Transaction.patch) utxo := by
  induction txs generalizing utxo with
  | nil => rfl
  | cons tx rest ih => exact congrArg _ (ih _)

theorem applyTransactions_append (utxo : UtxoSet) (txs txs' : List Transaction) :
    applyTransactions utxo (txs ++ txs') = applyTransactions (applyTransactions utxo txs) txs' :=
  List.foldl_append

end UtxoSet

end Bitrst
