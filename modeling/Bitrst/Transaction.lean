import Bitrst.Primitives

/-!
# Transactions

The records of `transaction.rs` and their wire encoding.  A transaction id is
the double SHA-256 of the encoding.
-/

namespace Bitrst

structure TxInput where
  previousOutput : Hash256
  index : UInt32
  scriptSig : Bytes
  sequence : UInt32
  deriving DecidableEq

structure TxOutput where
  value : UInt64
  scriptPubkey : Bytes
  deriving DecidableEq

structure Transaction where
  version : Int32
  inputs : List TxInput
  outputs : List TxOutput
  lockTime : UInt32
  deriving DecidableEq

def maxBlockSerializedSize : ℕ := 4000000

def maxTransactionSerializedSize : ℕ := maxBlockSerializedSize

def maxScriptSize : ℕ := 10000

def maxTransactionsPerBlock : ℕ := 25000

def compactSizeEncodedLen (value : UInt64) : ℕ :=
  if value ≤ 0xfc then 1
  else if value ≤ 0xffff then 3
  else if value ≤ 0xffffffff then 5
  else 9

def writeCompactSize (value : UInt64) : Bytes :=
  if value ≤ 0xfc then [value.toUInt8]
  else if value ≤ 0xffff then 0xfd :: u16ToLeBytes value.toUInt16
  else if value ≤ 0xffffffff then 0xfe :: u32ToLeBytes value.toUInt32
  else 0xff :: u64ToLeBytes value

def TxInput.serialize (input : TxInput) : Bytes :=
  input.previousOutput.toList ++ u32ToLeBytes input.index ++
    writeCompactSize (UInt64.ofNat input.scriptSig.length) ++ input.scriptSig ++
      u32ToLeBytes input.sequence

def TxOutput.serialize (output : TxOutput) : Bytes :=
  u64ToLeBytes output.value ++
    writeCompactSize (UInt64.ofNat output.scriptPubkey.length) ++ output.scriptPubkey

namespace Transaction

/-- A minimal coinbase whose script carries the height. -/
def coinbase (height : UInt32) (reward : UInt64) : Transaction where
  version := 1
  inputs := [⟨zeroHash, 0xffffffff, u32ToLeBytes height, 0xffffffff⟩]
  outputs := [⟨reward, []⟩]
  lockTime := 0

def serialize (tx : Transaction) : Bytes :=
  i32ToLeBytes tx.version ++
    writeCompactSize (UInt64.ofNat tx.inputs.length) ++
      tx.inputs.flatMap TxInput.serialize ++
        writeCompactSize (UInt64.ofNat tx.outputs.length) ++
          tx.outputs.flatMap TxOutput.serialize ++ u32ToLeBytes tx.lockTime

def serializedSize (tx : Transaction) : ℕ :=
  4 + compactSizeEncodedLen (UInt64.ofNat tx.inputs.length) +
    (tx.inputs.map fun input ↦
      32 + 4 + compactSizeEncodedLen (UInt64.ofNat input.scriptSig.length) +
        input.scriptSig.length + 4).sum +
    compactSizeEncodedLen (UInt64.ofNat tx.outputs.length) +
    (tx.outputs.map fun output ↦
      8 + compactSizeEncodedLen (UInt64.ofNat output.scriptPubkey.length) +
        output.scriptPubkey.length).sum + 4

def txid [Crypto] (tx : Transaction) : Hash256 := sha256d tx.serialize

/-- `UtxoSet::is_coinbase`. -/
def isCoinbase (tx : Transaction) : Bool :=
  match tx.inputs with
  | [input] => input.previousOutput == zeroHash && input.index == 0xffffffff
  | _ => false

theorem length_outputs_le_serializedSize (tx : Transaction) :
    tx.outputs.length ≤ tx.serializedSize := by
  have hsum : tx.outputs.length ≤ (tx.outputs.map fun output ↦
      8 + compactSizeEncodedLen (UInt64.ofNat output.scriptPubkey.length) +
        output.scriptPubkey.length).sum := by
    induction tx.outputs with
    | nil => simp
    | cons output rest ih =>
        simp only [List.length_cons, List.map_cons, List.sum_cons]
        omega
  unfold serializedSize
  omega

theorem length_inputs_le_serializedSize (tx : Transaction) :
    tx.inputs.length ≤ tx.serializedSize := by
  have hsum : tx.inputs.length ≤ (tx.inputs.map fun input ↦
      32 + 4 + compactSizeEncodedLen (UInt64.ofNat input.scriptSig.length) +
        input.scriptSig.length + 4).sum := by
    induction tx.inputs with
    | nil => simp
    | cons input rest ih =>
        simp only [List.length_cons, List.map_cons, List.sum_cons]
        omega
  unfold serializedSize
  omega

end Transaction

end Bitrst
