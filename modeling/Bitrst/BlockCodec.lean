import Bitrst.Block
import Bitrst.Wire

/-!
# The wire format of transactions and blocks

`deserialize` of transactions and blocks and the encoding of a block.  Both are
formats: within the decode limits what is encoded is decoded again, what is
decoded is the encoding of the result, as long as `serialized_size` says, and no
accepted byte string starts another.
-/

namespace Bitrst

open Support WireReader

def maxTransactionInputs : ℕ := 25000

def maxTransactionOutputs : ℕ := 25000

/-! ## Transactions -/

/-- One turn of the loop over the inputs. -/
def TxInput.decodeFrom : WireReader TxInput := do
  let previousOutput ← readHash "previous output hash"
  let index ← WireReader.readU32 "previous output index"
  let scriptLen ← readLimitedLen "scriptSig" maxScriptSize
  let scriptSig ← readBytes scriptLen "scriptSig"
  let sequence ← WireReader.readU32 "input sequence"
  return ⟨previousOutput, index, scriptSig, sequence⟩

/-- One turn of the loop over the outputs. -/
def TxOutput.decodeFrom : WireReader TxOutput := do
  let value ← readU64 "output value"
  let scriptLen ← readLimitedLen "scriptPubKey" maxScriptSize
  let scriptPubkey ← readBytes scriptLen "scriptPubKey"
  return ⟨value, scriptPubkey⟩

def Transaction.decodeFrom : WireReader Transaction := do
  let version ← readI32 "transaction version"
  let inputCount ← readLimitedLen "transaction input count" maxTransactionInputs
  let inputs ← readMany TxInput.decodeFrom inputCount
  let outputCount ← readLimitedLen "transaction output count" maxTransactionOutputs
  let outputs ← readMany TxOutput.decodeFrom outputCount
  let lockTime ← WireReader.readU32 "transaction locktime"
  return ⟨version, inputs, outputs, lockTime⟩

def Transaction.deserialize : Bytes → Except DecodeError Transaction :=
  decodeWhole decodeFrom "transaction size" "transaction" maxTransactionSerializedSize

def TxInput.WithinLimits (input : TxInput) : Prop := input.scriptSig.length ≤ maxScriptSize

def TxOutput.WithinLimits (output : TxOutput) : Prop := output.scriptPubkey.length ≤ maxScriptSize

/-- The counts and the scripts are within the limits of the decoder. -/
structure Transaction.WithinLimits (tx : Transaction) : Prop where
  inputs_le : tx.inputs.length ≤ maxTransactionInputs
  outputs_le : tx.outputs.length ≤ maxTransactionOutputs
  inputs : ∀ input ∈ tx.inputs, input.WithinLimits
  outputs : ∀ output ∈ tx.outputs, output.WithinLimits

theorem TxInput.reads : Reads TxInput.WithinLimits TxInput.serialize TxInput.decodeFrom := by
  have hread : Reads TxInput.WithinLimits
      (fun input ↦ input.previousOutput.toList ++ (u32ToLeBytes input.index ++
        (writeCompactSize (UInt64.ofNat input.scriptSig.length) ++ (id input.scriptSig ++
          (u32ToLeBytes input.sequence ++ []))))) TxInput.decodeFrom := by
    apply reads_hash.bind TxInput.previousOutput fun _ _ ↦ trivial
    intro previousOutput _
    apply reads_u32.bind TxInput.index fun _ _ ↦ trivial
    intro index _
    have hlimit : maxScriptSize < 2 ^ 64 := by decide
    apply (reads_limitedLen hlimit).bind (fun input : TxInput ↦ input.scriptSig.length)
      fun _ h ↦ h.1.1
    intro scriptLen hlen
    apply (reads_bytes scriptLen).bind TxInput.scriptSig fun _ h ↦ h.2
    intro scriptSig hscript
    apply reads_u32.bind TxInput.sequence fun _ _ ↦ trivial
    intro sequence _
    apply Reads.pure
    intro input
    constructor
    · rintro ⟨⟨⟨⟨⟨-, rfl⟩, rfl⟩, -⟩, rfl⟩, rfl⟩
      rfl
    · rintro rfl
      exact ⟨⟨⟨⟨⟨hscript.trans_le hlen, rfl⟩, rfl⟩, hscript⟩, rfl⟩, rfl⟩
  refine hread.congr (fun _ ↦ Iff.rfl) fun input _ ↦ ?_
  simp only [serialize, id, List.append_assoc, List.append_nil]

theorem TxOutput.reads : Reads TxOutput.WithinLimits TxOutput.serialize TxOutput.decodeFrom := by
  have hread : Reads TxOutput.WithinLimits
      (fun output ↦ u64ToLeBytes output.value ++
        (writeCompactSize (UInt64.ofNat output.scriptPubkey.length) ++
          (id output.scriptPubkey ++ []))) TxOutput.decodeFrom := by
    apply reads_u64.bind TxOutput.value fun _ _ ↦ trivial
    intro value _
    have hlimit : maxScriptSize < 2 ^ 64 := by decide
    apply (reads_limitedLen hlimit).bind (fun output : TxOutput ↦ output.scriptPubkey.length)
      fun _ h ↦ h.1
    intro scriptLen hlen
    apply (reads_bytes scriptLen).bind TxOutput.scriptPubkey fun _ h ↦ h.2
    intro scriptPubkey hscript
    apply Reads.pure
    intro output
    constructor
    · rintro ⟨⟨⟨-, rfl⟩, -⟩, rfl⟩
      rfl
    · rintro rfl
      exact ⟨⟨⟨hscript.trans_le hlen, rfl⟩, hscript⟩, rfl⟩
  refine hread.congr (fun _ ↦ Iff.rfl) fun output _ ↦ ?_
  simp only [serialize, id, List.append_assoc, List.append_nil]

theorem Transaction.reads :
    Reads Transaction.WithinLimits Transaction.serialize Transaction.decodeFrom := by
  have hread : Reads Transaction.WithinLimits
      (fun tx ↦ i32ToLeBytes tx.version ++ (writeCompactSize (UInt64.ofNat tx.inputs.length) ++
        (tx.inputs.flatMap TxInput.serialize ++
          (writeCompactSize (UInt64.ofNat tx.outputs.length) ++
            (tx.outputs.flatMap TxOutput.serialize ++ (u32ToLeBytes tx.lockTime ++ []))))))
      Transaction.decodeFrom := by
    apply reads_i32.bind Transaction.version fun _ _ ↦ trivial
    intro version _
    have hinputs : maxTransactionInputs < 2 ^ 64 := by decide
    apply (reads_limitedLen hinputs).bind (fun tx : Transaction ↦ tx.inputs.length)
      fun _ h ↦ h.1.inputs_le
    intro inputCount hinputCount
    apply (TxInput.reads.many inputCount).bind Transaction.inputs fun _ h ↦ ⟨h.2, h.1.1.inputs⟩
    intro inputs hinputs
    have houtputs : maxTransactionOutputs < 2 ^ 64 := by decide
    apply (reads_limitedLen houtputs).bind (fun tx : Transaction ↦ tx.outputs.length)
      fun _ h ↦ h.1.1.1.outputs_le
    intro outputCount houtputCount
    apply (TxOutput.reads.many outputCount).bind Transaction.outputs
      fun _ h ↦ ⟨h.2, h.1.1.1.1.outputs⟩
    intro outputs houtputs
    apply reads_u32.bind Transaction.lockTime fun _ _ ↦ trivial
    intro lockTime _
    apply Reads.pure
    intro tx
    constructor
    · rintro ⟨⟨⟨⟨⟨⟨-, rfl⟩, -⟩, rfl⟩, -⟩, rfl⟩, rfl⟩
      rfl
    · rintro rfl
      exact ⟨⟨⟨⟨⟨⟨⟨hinputs.1.trans_le hinputCount, houtputs.1.trans_le houtputCount, hinputs.2,
        houtputs.2⟩, rfl⟩, hinputs.1⟩, rfl⟩, houtputs.1⟩, rfl⟩, rfl⟩
  refine hread.congr (fun _ ↦ Iff.rfl) fun tx _ ↦ ?_
  simp only [serialize, List.append_assoc, List.append_nil]

/-- The analytic size is the length of the encoding. -/
theorem Transaction.length_serialize (tx : Transaction) :
    tx.serialize.length = tx.serializedSize := by
  have hinput : ∀ input : TxInput, input.serialize.length =
      32 + 4 + compactSizeEncodedLen (UInt64.ofNat input.scriptSig.length) +
        input.scriptSig.length + 4 := by
    intro input
    simp only [TxInput.serialize, List.length_append, List.Vector.toList_length,
      length_writeCompactSize]
    rfl
  have houtput : ∀ output : TxOutput, output.serialize.length =
      8 + compactSizeEncodedLen (UInt64.ofNat output.scriptPubkey.length) +
        output.scriptPubkey.length := by
    intro output
    simp only [TxOutput.serialize, List.length_append, length_writeCompactSize]
    rfl
  simp only [serialize, serializedSize, List.length_append, length_writeCompactSize,
    List.length_flatMap, hinput, houtput]
  rfl

/-- A transaction within the decode limits, its size included. -/
def Transaction.Decodable (tx : Transaction) : Prop :=
  tx.serializedSize ≤ maxTransactionSerializedSize ∧ tx.WithinLimits

theorem Transaction.format : Format Transaction.Decodable Transaction.serialize
    Transaction.serializedSize Transaction.deserialize :=
  decodeWhole_format Transaction.reads fun tx ↦ tx.length_serialize.symm

/-! ## Encodings determine transactions -/

/-- No length of the transaction exceeds 64 bits. -/
structure Transaction.Sized (tx : Transaction) : Prop where
  inputs_lt : tx.inputs.length < 2 ^ 64
  outputs_lt : tx.outputs.length < 2 ^ 64
  inputs : ∀ input ∈ tx.inputs, input.scriptSig.length < 2 ^ 64
  outputs : ∀ output ∈ tx.outputs, output.scriptPubkey.length < 2 ^ 64

/-- A length within 64 bits and the rest are determined. -/
theorem unique_length {n m : ℕ} {rest rest' : Bytes} (hn : n < 2 ^ 64) (hm : m < 2 ^ 64)
    (h : writeCompactSize (UInt64.ofNat n) ++ rest = writeCompactSize (UInt64.ofNat m) ++ rest') :
    n = m ∧ rest = rest' := by
  obtain ⟨hvalue, hrest⟩ := (@reads_compactSize "").unique _ _ _ _ trivial trivial h
  have hnat := congrArg UInt64.toNat hvalue
  rw [UInt64.toNat_ofNat_of_lt' hn, UInt64.toNat_ofNat_of_lt' hm] at hnat
  exact ⟨hnat, hrest⟩

theorem TxInput.unique :
    Unique (fun input : TxInput ↦ input.scriptSig.length < 2 ^ 64) TxInput.serialize := by
  rintro ⟨hash, index, scriptSig, sequence⟩ ⟨hash', index', scriptSig', sequence'⟩ rest rest'
    hsized hsized' h
  simp only [serialize, List.append_assoc] at h
  obtain ⟨rfl, h₁⟩ := (@reads_hash "").unique _ _ _ _ trivial trivial h
  obtain ⟨rfl, h₂⟩ := (@reads_u32 "").unique _ _ _ _ trivial trivial h₁
  obtain ⟨hlength, h₃⟩ := unique_length hsized hsized' h₂
  obtain ⟨rfl, h₄⟩ := List.append_inj h₃ hlength
  obtain ⟨rfl, h₅⟩ := (@reads_u32 "").unique _ _ _ _ trivial trivial h₄
  exact ⟨rfl, h₅⟩

theorem TxOutput.unique :
    Unique (fun output : TxOutput ↦ output.scriptPubkey.length < 2 ^ 64) TxOutput.serialize := by
  rintro ⟨value, scriptPubkey⟩ ⟨value', scriptPubkey'⟩ rest rest' hsized hsized' h
  simp only [serialize, List.append_assoc] at h
  obtain ⟨rfl, h₁⟩ := (@reads_u64 "").unique _ _ _ _ trivial trivial h
  obtain ⟨hlength, h₂⟩ := unique_length hsized hsized' h₁
  obtain ⟨rfl, h₃⟩ := List.append_inj h₂ hlength
  exact ⟨rfl, h₃⟩

theorem Transaction.unique : Unique Transaction.Sized Transaction.serialize := by
  rintro ⟨version, inputs, outputs, lockTime⟩ ⟨version', inputs', outputs', lockTime'⟩ rest rest'
    hsized hsized' h
  simp only [serialize, List.append_assoc] at h
  obtain ⟨rfl, h₁⟩ := (@reads_i32 "").unique _ _ _ _ trivial trivial h
  obtain ⟨hlength, h₂⟩ := unique_length hsized.inputs_lt hsized'.inputs_lt h₁
  obtain ⟨rfl, h₃⟩ := TxInput.unique.many hlength hsized.inputs hsized'.inputs h₂
  obtain ⟨hlength, h₄⟩ := unique_length hsized.outputs_lt hsized'.outputs_lt h₃
  obtain ⟨rfl, h₅⟩ := TxOutput.unique.many hlength hsized.outputs hsized'.outputs h₄
  obtain ⟨rfl, h₆⟩ := (@reads_u32 "").unique _ _ _ _ trivial trivial h₅
  exact ⟨rfl, h₆⟩

/-! ## Blocks -/

def BlockHeader.decodeFrom : WireReader BlockHeader := do
  let version ← readI32 "block version"
  let prevBlockhash ← readHash "previous block hash"
  let merkleRoot ← readHash "merkle root"
  let time ← WireReader.readU32 "block time"
  let bits ← WireReader.readU32 "block bits"
  let nonce ← WireReader.readU32 "block nonce"
  return ⟨version, prevBlockhash, merkleRoot, time, bits, nonce⟩

def Block.serialize (block : Block) : Bytes :=
  block.header.serialize ++ writeCompactSize (UInt64.ofNat block.transactions.length) ++
    block.transactions.flatMap Transaction.serialize

/-- The reading part of `Block::deserialize`. -/
def Block.decodeFrom : WireReader Block := do
  let header ← BlockHeader.decodeFrom
  let count ← readLimitedLen "block transaction count" maxTransactionsPerBlock
  let transactions ← readMany Transaction.decodeFrom count
  return ⟨header, transactions⟩

def Block.deserialize : Bytes → Except DecodeError Block :=
  decodeWhole decodeFrom "block size" "block" maxBlockSerializedSize

/-- The number of transactions and every transaction are within the limits of the decoder. -/
structure Block.WithinLimits (block : Block) : Prop where
  count_le : block.transactions.length ≤ maxTransactionsPerBlock
  transactions : ∀ tx ∈ block.transactions, tx.WithinLimits

theorem BlockHeader.reads :
    Reads (fun _ ↦ True) BlockHeader.serialize BlockHeader.decodeFrom := by
  have hread : Reads (fun _ ↦ True)
      (fun header ↦ i32ToLeBytes header.version ++ (header.prevBlockhash.toList ++
        (header.merkleRoot.toList ++ (u32ToLeBytes header.time ++ (u32ToLeBytes header.bits ++
          (u32ToLeBytes header.nonce ++ [])))))) BlockHeader.decodeFrom := by
    apply reads_i32.bind BlockHeader.version fun _ _ ↦ trivial
    intro version _
    apply reads_hash.bind BlockHeader.prevBlockhash fun _ _ ↦ trivial
    intro prevBlockhash _
    apply reads_hash.bind BlockHeader.merkleRoot fun _ _ ↦ trivial
    intro merkleRoot _
    apply reads_u32.bind BlockHeader.time fun _ _ ↦ trivial
    intro time _
    apply reads_u32.bind BlockHeader.bits fun _ _ ↦ trivial
    intro bits _
    apply reads_u32.bind BlockHeader.nonce fun _ _ ↦ trivial
    intro nonce _
    apply Reads.pure
    intro header
    constructor
    · rintro ⟨⟨⟨⟨⟨⟨-, rfl⟩, rfl⟩, rfl⟩, rfl⟩, rfl⟩, rfl⟩
      rfl
    · rintro rfl
      exact ⟨⟨⟨⟨⟨⟨trivial, rfl⟩, rfl⟩, rfl⟩, rfl⟩, rfl⟩, rfl⟩
  refine hread.congr (fun _ ↦ Iff.rfl) fun header _ ↦ ?_
  simp only [serialize, List.append_assoc, List.append_nil]

theorem Block.reads : Reads Block.WithinLimits Block.serialize Block.decodeFrom := by
  have hread : Reads Block.WithinLimits
      (fun block ↦ block.header.serialize ++
        (writeCompactSize (UInt64.ofNat block.transactions.length) ++
          (block.transactions.flatMap Transaction.serialize ++ []))) Block.decodeFrom := by
    apply BlockHeader.reads.bind Block.header fun _ _ ↦ trivial
    intro header _
    have hlimit : maxTransactionsPerBlock < 2 ^ 64 := by decide
    apply (reads_limitedLen hlimit).bind (fun block : Block ↦ block.transactions.length)
      fun _ h ↦ h.1.count_le
    intro count hcount
    apply (Transaction.reads.many count).bind Block.transactions
      fun _ h ↦ ⟨h.2, h.1.1.transactions⟩
    intro transactions htransactions
    apply Reads.pure
    intro block
    constructor
    · rintro ⟨⟨⟨-, rfl⟩, -⟩, rfl⟩
      rfl
    · rintro rfl
      exact ⟨⟨⟨⟨htransactions.1.trans_le hcount, htransactions.2⟩, rfl⟩, htransactions.1⟩, rfl⟩
  refine hread.congr (fun _ ↦ Iff.rfl) fun block _ ↦ ?_
  simp only [serialize, List.append_assoc, List.append_nil]

theorem BlockHeader.length_serialize (header : BlockHeader) : header.serialize.length = 80 := by
  simp only [serialize, List.length_append, List.Vector.toList_length]
  rfl

theorem Block.length_serialize (block : Block) :
    block.serialize.length = block.serializedSize := by
  simp only [serialize, serializedSize, List.length_append, BlockHeader.length_serialize,
    length_writeCompactSize, List.length_flatMap, Transaction.length_serialize]

/-- A block within the decode limits, its size included. -/
def Block.Decodable (block : Block) : Prop :=
  block.serializedSize ≤ maxBlockSerializedSize ∧ block.WithinLimits

theorem Block.format :
    Format Block.Decodable Block.serialize Block.serializedSize Block.deserialize :=
  decodeWhole_format Block.reads fun block ↦ block.length_serialize.symm

/-- The wire formats of transactions and of blocks. -/
theorem wire_formats :
    Format Transaction.Decodable Transaction.serialize Transaction.serializedSize
        Transaction.deserialize ∧
      Format Block.Decodable Block.serialize Block.serializedSize Block.deserialize :=
  ⟨Transaction.format, Block.format⟩

end Bitrst
