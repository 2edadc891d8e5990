import Bitrst.Transaction

/-!
# Blocks and Merkle roots

An odd level of the Merkle tree duplicates its last hash.  The hash of a block
covers the header alone.
-/

namespace Bitrst

structure BlockHeader where
  version : Int32
  prevBlockhash : Hash256
  merkleRoot : Hash256
  time : UInt32
  bits : UInt32
  nonce : UInt32
  deriving DecidableEq

structure Block where
  header : BlockHeader
  transactions : List Transaction
  deriving DecidableEq

section Merkle

variable [Crypto]

/-- One pass of the `while` loop of `merkle_root`, over the chunks of two. -/
def merkleLevel : List Hash256 → List Hash256
  | left :: right :: rest => sha256d (left.toList ++ right.toList) :: merkleLevel rest
  | [left] => [sha256d (left.toList ++ left.toList)]
  | [] => []

/-- The `while level.len() > 1` loop.  A level is shorter than the one below
it, so the number of leaves is fuel enough. -/
def merkleReduce : ℕ → List Hash256 → List Hash256
  | 0, level => level
  | n + 1, level => if level.length > 1 then merkleReduce n (merkleLevel level) else level

def merkleRoot (txids : List Hash256) : Option Hash256 :=
  if txids.isEmpty || maxTransactionsPerBlock < txids.length then none
  else (merkleReduce txids.length txids).head?

end Merkle

def BlockHeader.serialize (header : BlockHeader) : Bytes :=
  i32ToLeBytes header.version ++ header.prevBlockhash.toList ++ header.merkleRoot.toList ++
    u32ToLeBytes header.time ++ u32ToLeBytes header.bits ++ u32ToLeBytes header.nonce

namespace Block

def serializedSize (block : Block) : ℕ :=
  80 + compactSizeEncodedLen (UInt64.ofNat block.transactions.length) +
    (block.transactions.map Transaction.serializedSize).sum

variable [Crypto]

def hash (block : Block) : Hash256 := sha256d block.header.serialize

def merkleRootFromTransactions (transactions : List Transaction) : Option Hash256 :=
  if transactions.isEmpty then none
  else Bitrst.merkleRoot (transactions.map Transaction.txid)

def headerMerkleRootMatches (block : Block) : Bool :=
  match merkleRootFromTransactions block.transactions with
  | some root => root == block.header.merkleRoot
  | none => false

end Block

end Bitrst
