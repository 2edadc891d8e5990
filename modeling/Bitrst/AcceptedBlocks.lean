import Bitrst.BlockTransactions
import Bitrst.CrashConsistency
import Bitrst.LinearRun
import Bitrst.MessageRoundTrip

/-!
# Accepted blocks, stored and relayed

`validate_block_limits` bounds the size of a block, the number of its transactions and
the lengths of its scripts.  The decoders also bound the inputs and the outputs of a
single transaction.  So an accepted block is read back, from the store and by a peer,
exactly when no transaction has more of them.
-/

namespace Bitrst

open Support

/-- The block is decoded from its bytes, found in the store it was put in, and read by a peer. -/
structure Block.ReadBack [Crypto] (block : Block) : Prop where
  decoded : Block.deserialize block.serialize = .ok block
  stored : ∀ disk : StoreDisk, FileBlockStore.getBlock
    ((FileBlockStore.putBlock block).foldl DirCall.perform disk).seen block.hash = .ok (some block)
  relayed : ∀ network, ∃ bytes, writeMessage network (.block block) = .ok bytes ∧
    ∀ rest, readMessage network (bytes ++ rest) = .ok (.block block, rest)

/-- No transaction has more inputs or outputs than its decoder takes. -/
def Block.Narrow (block : Block) : Prop :=
  ∀ tx ∈ block.transactions,
    tx.inputs.length ≤ maxTransactionInputs ∧ tx.outputs.length ≤ maxTransactionOutputs

variable [Crypto] {block : Block}

omit [Crypto] in
/-- The limits of the validator leave out just the two counts. -/
theorem Block.decodable_iff_narrow (hlimits : Chain.validateBlockLimits block = .ok ()) :
    block.Decodable ↔ block.Narrow := by
  obtain ⟨hsize, hcount, hscripts⟩ := Chain.validateBlockLimits_ok_iff.mp hlimits
  constructor
  · intro h tx htx
    have hlimits := h.2.transactions tx htx
    exact ⟨hlimits.inputs_le, hlimits.outputs_le⟩
  · intro h
    refine ⟨hsize, hcount, fun tx htx ↦ ?_⟩
    obtain ⟨hinputs, houtputs⟩ := hscripts tx htx
    exact ⟨(h tx htx).1, (h tx htx).2, hinputs, houtputs⟩

/-- What `put_block` leaves under the name of the block. -/
theorem FileBlockStore.lookup_putBlock (block : Block) (disk : StoreDisk) :
    ((putBlock block).foldl DirCall.perform disk).seen.lookup (blockPath block.hash) =
      some ⟨block.serialize, true⟩ := by
  simp only [putBlock, List.foldl_cons, List.foldl_nil, DirCall.perform,
    HashMap.lookup_insert_ite, if_true, List.nil_append]

theorem exists_writeMessage_block (network : Network)
    (hsize : block.serializedSize ≤ maxBlockSerializedSize) :
    ∃ bytes, writeMessage network (.block block) = .ok bytes := by
  have hname : Command.encode "block" =
      .ok ⟨[0x62, 0x6c, 0x6f, 0x63, 0x6b, 0, 0, 0, 0, 0, 0, 0], rfl⟩ := by
    decide +kernel
  refine exists_writeMessage rfl ?_ hname
  rw [← Block.length_serialize] at hsize
  exact hsize

/-- Within the limits of the validator, the block is read back exactly when it is narrow. -/
theorem Block.readBack_iff (hlimits : Chain.validateBlockLimits block = .ok ()) :
    block.ReadBack ↔ block.Narrow := by
  rw [← decodable_iff_narrow hlimits]
  constructor
  · intro h
    exact (Block.format.written _ _ h.decoded).1
  · intro h
    refine ⟨Block.format.round_trip block h, fun disk ↦ ?_, fun network ↦ ?_⟩
    · exact FileBlockStore.getBlock_of_lookup (FileBlockStore.lookup_putBlock block disk) rfl h
    · obtain ⟨bytes, hwritten⟩ := exists_writeMessage_block network h.1
      exact ⟨bytes, hwritten, fun rest ↦
        (readMessage_written_iff (.block block) hwritten rest).mpr h.2⟩

/-- A block that the chain connected, reorganised to or stored on a side branch is read back
exactly when it is narrow. -/
theorem accepted_readBack_iff [Features] (chain : Chain) (order : OrphanOrder) (block : Block)
    (result : ConnectResult) (hok : (chain.connectBlock order block).1 = .ok result)
    (hplaced : ∀ hash, result ≠ .orphaned hash) : block.ReadBack ↔ block.Narrow := by
  obtain ⟨parent, work, hadm⟩ := Chain.connectBlock_admitted hok hplaced
  exact Block.readBack_iff hadm.limits

end Bitrst

/-! ## A block of one coinbase with too many outputs

It has one output more than the decoder of a transaction takes, each of value zero under the
empty script, so its encoding is a first chunk followed by zeros.
-/

namespace Bitrst.Sample

open Support

def zeroOutputs (n : ℕ) : List TxOutput := List.replicate n ⟨0, []⟩

def wideCoin : Transaction where
  version := 1
  inputs := [⟨zeroHash, 0xffffffff, [1, 0, 0, 0], 0xffffffff⟩]
  outputs := zeroOutputs 25001
  lockTime := 0

def wideRoot : Hash256 := beVector 32
  0x293827f35e0c0420cac380e4b33e45e375e51a137a304e636c7dda237696d602

/-- In the place of `first`. -/
def wide : Block := ⟨header genesisHash wideRoot 1001 0, [wideCoin]⟩

/-- The bytes of the first chunk. -/
def wideHead : Bytes := beBytes 32
  0x0100000001000000000000000000000000000000000000000000000000000000 ++
    beBytes 32 0x0000000000ffffffff0401000000fffffffffda9610000000000000000000000

theorem serialize_zeroOutputs (n : ℕ) :
    (zeroOutputs n).flatMap TxOutput.serialize = List.replicate (n * 9) 0 := by
  have hzero : TxOutput.serialize ⟨0, []⟩ = List.replicate 9 0 := by decide +kernel
  rw [zeroOutputs, List.flatMap_replicate, hzero, List.flatten_replicate_replicate]

theorem outputSumLoop_zeroOutputs (n : ℕ) (sum : UInt64) :
    UtxoSet.outputSumLoop (zeroOutputs n) sum = .ok sum := by
  induction n with
  | zero => rfl
  | succ n ih =>
      have hadd : checkedAddU64 sum 0 = some sum := by
        simp [checkedAddU64, sum.toNat_lt]
      rw [zeroOutputs, List.replicate_succ, UtxoSet.outputSumLoop, hadd]
      exact ih

theorem wideCoin_serialize : wideCoin.serialize = wideHead ++ List.replicate 225002 0 := by
  have hhead : i32ToLeBytes wideCoin.version ++ writeCompactSize 1 ++
      wideCoin.inputs.flatMap TxInput.serialize ++ writeCompactSize 25001 ++
        List.replicate 11 0 = wideHead := by
    decide +kernel
  have hlockTime : u32ToLeBytes wideCoin.lockTime = List.replicate 4 0 := by decide +kernel
  have hzeros : 11 + 225002 = 25001 * 9 + 4 := rfl
  have hcount : wideCoin.outputs.length = 25001 := List.length_replicate
  rw [Transaction.serialize, hcount, hlockTime]
  change i32ToLeBytes wideCoin.version ++ writeCompactSize 1 ++
      wideCoin.inputs.flatMap TxInput.serialize ++ writeCompactSize 25001 ++
        (zeroOutputs 25001).flatMap TxOutput.serialize ++ List.replicate 4 0 = _
  rw [serialize_zeroOutputs, ← hhead, List.append_assoc _ (List.replicate _ _),
    ← List.replicate_add, ← hzeros, List.replicate_add]
  simp only [List.append_assoc]

/-! The states of SHA-256 after the first chunk and after each fifth of the zeros. -/

def wideState0 : Sha256.State :=
  ⟨0x1533359b, 0x7726018c, 0x07536b4d, 0xd446656d, 0x41aa0abd, 0x77db7835, 0xf7a8fa56, 0x954d601b⟩

def wideState1 : Sha256.State :=
  ⟨0xd1cdaa11, 0x1ad86801, 0x20d88372, 0x556ade3f, 0x4e1f460d, 0x80fd70ec, 0x0b4765b4, 0x404ee231⟩

def wideState2 : Sha256.State :=
  ⟨0xf9e6e905, 0xb6f4ff8e, 0xfc6a89db, 0x688b8d75, 0x94c039c7, 0xeed05829, 0x728345cf, 0x6ebe12ff⟩

def wideState3 : Sha256.State :=
  ⟨0xb25276c8, 0x08f6313a, 0x3a5fb141, 0x989272a0, 0x49799efa, 0x6357ce54, 0x0799de2d, 0x51f5a4ae⟩

def wideState4 : Sha256.State :=
  ⟨0xf2aa556d, 0x9097ce5a, 0x33a5d385, 0xc97bc2ff, 0x6885f7fe, 0x36d49ac5, 0xb7533cd4, 0x2bd99810⟩

def wideState5 : Sha256.State :=
  ⟨0x72d7d6a8, 0xf7059baf, 0xabe31866, 0x848cff5e, 0x77dfabda, 0x0a488124, 0x0aa085e7, 0xfe39cf10⟩

/-- A fifth of the zeros takes each of the states to the next. -/
def zeroRuns : Known (Sha256.compressZeros 703) where
  table := [(wideState0, wideState1), (wideState1, wideState2), (wideState2, wideState3),
    (wideState3, wideState4), (wideState4, wideState5)]
  sound := by
    -- One evaluation at a time, for the memory that each takes.
    have h0 : Sha256.compressZeros 703 wideState0 = wideState1 := by decide +kernel
    have h1 : Sha256.compressZeros 703 wideState1 = wideState2 := by decide +kernel
    have h2 : Sha256.compressZeros 703 wideState2 = wideState3 := by decide +kernel
    have h3 : Sha256.compressZeros 703 wideState3 = wideState4 := by decide +kernel
    have h4 : Sha256.compressZeros 703 wideState4 = wideState5 := by decide +kernel
    simp only [List.forall_mem_cons]
    exact ⟨h0, h1, h2, h3, h4, List.forall_mem_nil _⟩

theorem compressZeros_wideState0 : Sha256.compressZeros 3515 wideState0 = wideState5 := by
  have hrun : ∀ entry ∈ zeroRuns.table, Sha256.compressZeros 703 entry.1 = entry.2 :=
    zeroRuns.sound
  simp only [zeroRuns, List.forall_mem_cons] at hrun
  obtain ⟨h0, h1, h2, h3, h4, -⟩ := hrun
  have hsplit : 3515 = 703 + (703 + (703 + (703 + 703))) := rfl
  simp only [hsplit, Sha256.compressZeros_add, h0, h1, h2, h3, h4]

theorem wideCoin_txid : wideCoin.txid = wideRoot := by
  have hfirst : Sha256.compress Sha256.initialState (beNat wideHead) = wideState0 := by
    decide +kernel
  have hlast : (Sha256.compress wideState5 (0x80 * 256 ^ 21 + 8 * 225066)).number =
      0x44e81a1732eea4c5fcc30fb93e5f71880464782fed3ff7508dec5809b22e5932 := by
    decide +kernel
  have hinner : Sha256.digest wideCoin.serialize = beVector 32
      0x44e81a1732eea4c5fcc30fb93e5f71880464782fed3ff7508dec5809b22e5932 := by
    have hlength : wideHead.length = 64 := by decide +kernel
    have hdigest := Sha256.digest_append_zeros (n := 3515) (r := 42) hlength (by decide)
      (by decide)
    rw [hfirst, compressZeros_wideState0] at hdigest
    rw [wideCoin_serialize, ← hlast]
    exact hdigest
  have houter : Crypto.sha256 (beVector 32
      0x44e81a1732eea4c5fcc30fb93e5f71880464782fed3ff7508dec5809b22e5932).toList = wideRoot := by
    decide +kernel
  rw [Transaction.txid, sha256d, sha256_eq wideCoin.serialize, hinner, houter]

theorem wide_bare : Chain.Bare wide where
  coinbase := ⟨wideCoin, 0, rfl, rfl, outputSumLoop_zeroOutputs 25001 0⟩
  limits := by
    have hsize : wideCoin.serializedSize = 225066 := by
      rw [← Transaction.length_serialize, wideCoin_serialize, List.length_append,
        List.length_replicate]
      rfl
    refine Chain.validateBlockLimits_ok_iff.mpr ⟨?_, by decide, fun tx htx ↦ ?_⟩
    · have hone : wide.transactions = [wideCoin] := rfl
      rw [Block.serializedSize, hone, List.map_singleton, List.sum_singleton, hsize]
      decide
    · obtain rfl := List.mem_singleton.mp htx
      refine ⟨by decide, fun output houtput ↦ ?_⟩
      obtain rfl := List.eq_of_mem_replicate houtput
      exact Nat.zero_le _
  pow := by decide +kernel
  merkle := by
    have hroot : Block.merkleRootFromTransactions [wideCoin] = some wideCoin.txid := rfl
    rw [Block.headerMerkleRootMatches, wide, hroot, wideCoin_txid]
    exact beq_self_eq_true wideRoot

theorem wide_admitted : Chain.Admitted start wide genesisMeta easyWork := by
  have hchecks : start.known.lookup wide.hash = none ∧ start.orphans.lookup wide.hash = none ∧
      start.known.lookup wide.header.prevBlockhash = some genesisMeta ∧
      validBlockTime wide.header.time
        (start.medianPastTimeBefore wide.header.prevBlockhash) start.networkTime = true ∧
      start.expectedBits (genesisMeta.height + 1) wide.header.bits = .ok wide.header.bits := by
    decide +kernel
  obtain ⟨hunknown, horphan, hparent, htime, hbits⟩ := hchecks
  exact wide_bare.admitted hunknown horphan hparent htime hbits blockWork_easyBits

theorem wide_connected : (start.connectBlock order wide).1 = .ok (.connected 1 wide.hash) := by
  have htip : wide.header.prevBlockhash = start.tipHash := by decide +kernel
  have hrun : Chain.Reachable genesis start := start_reachable
  rw [Chain.connectBlock_eq_place hrun.coherent.indexed rfl order wide_admitted,
    Chain.place_extended htip]
  rfl

theorem wide_not_narrow : ¬ wide.Narrow := by
  intro h
  have hle := (h wideCoin List.mem_cons_self).2
  rw [wideCoin, zeroOutputs, List.length_replicate] at hle
  exact absurd hle (by decide)

/-- The chain connects a block that is not read back. -/
theorem accepted_not_readBack : ¬ ∀ (genesis : Block) (chain : Chain) (order : OrphanOrder)
    (block : Block) (result : ConnectResult), Chain.Reachable genesis chain →
    (chain.connectBlock order block).1 = .ok result → (∀ hash, result ≠ .orphaned hash) →
    block.ReadBack := by
  intro hall
  have hread := hall genesis start order wide _ start_reachable wide_connected (by simp)
  exact wide_not_narrow ((Block.readBack_iff wide_bare.limits).mp hread)

theorem first_readBack_iff : first.ReadBack ↔ first.Narrow := by
  have hopen : Opens first := by decide +kernel
  have hcall : (start.connectBlock order first).1 = .ok (.connected 1 first.hash) := by
    have hrun : Chain.Reachable genesis start := start_reachable
    rw [Chain.connectBlock_eq_place hrun.coherent.indexed rfl order hopen.admitted,
      hopen.place_eq]
  exact accepted_readBack_iff start order first _ hcall (by simp)

end Bitrst.Sample
