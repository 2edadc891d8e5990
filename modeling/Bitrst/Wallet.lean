import Bitrst.Chain

/-!
# The wallet

`wallet.rs`: the outputs that pay a watched hash, kept up to date by the events
of the chain, with undo data for each connected block.  An event names a block
by height and hash; a connected block is looked up by its height in the chain
at hand.
-/

namespace Bitrst

open Support

structure WalletUtxo where
  outpoint : OutPoint
  value : UInt64
  scriptPubkey : Bytes
  deriving DecidableEq

structure WalletBlockUndo where
  created : List OutPoint
  removed : List WalletUtxo
  deriving DecidableEq

structure Wallet where
  watched : Finset Hash160
  utxos : HashMap OutPoint WalletUtxo
  blockUndo : HashMap Hash256 WalletBlockUndo

/-- The errors of signing an input and of applying events. -/
inductive WalletError
  | inputIndexOutOfRange
  | sighash (e : SighashError)
  | missingActiveBlock (height : ℕ)
  deriving DecidableEq

/-- The hash that a pay-to-public-key-hash script pays. -/
def p2pkhPubkeyHash (script : Bytes) : Option Hash160 :=
  if hlength : script.length = 25 then
    if script.getD 0 0 ≠ 0x76 ∨ script.getD 1 0 ≠ 0xa9 ∨ script.getD 2 0 ≠ 20 ∨
        script.getD 23 0 ≠ 0x88 ∨ script.getD 24 0 ≠ 0xac then none
    else some ⟨(script.drop 3).take 20, by rw [List.length_take, List.length_drop, hlength]; rfl⟩
  else none

namespace Wallet

def new : Wallet where
  watched := ∅
  utxos := ∅
  blockUndo := ∅

/-- Only the public key hash of the address is read. -/
def watchAddress (wallet : Wallet) (pubkeyHash : Hash160) : Wallet :=
  { wallet with watched := insert pubkeyHash wallet.watched }

def isWatched (watched : Finset Hash160) (scriptPubkey : Bytes) : Bool :=
  match p2pkhPubkeyHash scriptPubkey with
  | some pubkeyHash => decide (pubkeyHash ∈ watched)
  | none => false

/-- `for input in &tx.inputs`. -/
def removeInputs : List TxInput → HashMap OutPoint WalletUtxo × WalletBlockUndo →
    HashMap OutPoint WalletUtxo × WalletBlockUndo
  | [], state => state
  | input :: rest, (utxos, undo) =>
      match utxos.lookup input.outPoint with
      | some utxo =>
          removeInputs rest (Finmap.erase input.outPoint utxos,
            { undo with removed := undo.removed ++ [utxo] })
      | none => removeInputs rest (utxos, undo)

/-- `for (index, output) in tx.outputs.iter().enumerate()`. -/
def insertOutputs (watched : Finset Hash160) (txid : Hash256) : List (TxOutput × ℕ) →
    HashMap OutPoint WalletUtxo × WalletBlockUndo → HashMap OutPoint WalletUtxo × WalletBlockUndo
  | [], state => state
  | (output, index) :: rest, (utxos, undo) =>
      if isWatched watched output.scriptPubkey then
        let outpoint : OutPoint := ⟨txid, UInt32.ofNat index⟩
        insertOutputs watched txid rest
          (Finmap.insert outpoint ⟨outpoint, output.value, output.scriptPubkey⟩ utxos,
            { undo with created := undo.created ++ [outpoint] })
      else insertOutputs watched txid rest (utxos, undo)

variable [Crypto]

/-- One turn of `for tx in &block.transactions`. -/
def connectTransaction (watched : Finset Hash160)
    (state : HashMap OutPoint WalletUtxo × WalletBlockUndo) (tx : Transaction) :
    HashMap OutPoint WalletUtxo × WalletBlockUndo :=
  insertOutputs watched tx.txid tx.outputs.zipIdx (removeInputs tx.inputs state)

/-- The `BlockConnected` arm, for the block that was looked up. -/
def connectBlock (wallet : Wallet) (block : Block) : Wallet :=
  let (utxos, undo) :=
    block.transactions.foldl (connectTransaction wallet.watched) (wallet.utxos, ⟨[], []⟩)
  { wallet with
    utxos := utxos
    blockUndo := Finmap.insert block.hash undo wallet.blockUndo }

omit [Crypto] in
/-- The `BlockDisconnected` arm. -/
def disconnectBlock (wallet : Wallet) (hash : Hash256) : Wallet :=
  match wallet.blockUndo.lookup hash with
  | none => wallet
  | some undo =>
      let utxos := undo.created.foldl (fun utxos outpoint ↦ Finmap.erase outpoint utxos)
        wallet.utxos
      { wallet with
        blockUndo := Finmap.erase hash wallet.blockUndo
        utxos := undo.removed.foldl (fun utxos utxo ↦ Finmap.insert utxo.outpoint utxo utxos)
          utxos }

/-- An error leaves the events before it applied. -/
def applyEvents (chain : Chain) : List ChainEvent → Wallet → Except WalletError Unit × Wallet
  | [], wallet => (.ok (), wallet)
  | .blockConnected height _ _ :: rest, wallet =>
      match chain.activeBlockAt height with
      | none => (.error (.missingActiveBlock height), wallet)
      | some block => applyEvents chain rest (wallet.connectBlock block)
  | .blockDisconnected _ hash :: rest, wallet =>
      applyEvents chain rest (wallet.disconnectBlock hash)
  | _ :: rest, wallet => applyEvents chain rest wallet

omit [Crypto] in
/-- `.sum()` over the values wraps in a release build and panics in a debug build. -/
def balance (wallet : Wallet) : UInt64 :=
  (wallet.utxos.entries.map fun entry ↦ entry.2.value).fold (· + ·) 0

end Wallet

end Bitrst
