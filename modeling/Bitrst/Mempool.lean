import Bitrst.Chain
import Bitrst.Support.Closure
import Mathlib.Data.Prod.Lex

/-!
# The transaction pool

`mempool.rs`: bounded admission with eviction of the lowest fee rate, and the
synchronisation with the active chain.  A method on `&mut self` takes the pool
and returns the pool it leaves behind, with its result if it has one; a failed
admission may leave a pool from which entries were evicted.

The source iterates its hash maps only to collect sets, to sort by the unique
sequence number or to find a unique minimum, so the order of the entries does
not show.  Sequence numbers are natural numbers.
-/

namespace Bitrst

open Support

structure MempoolLimits where
  maxTxCount : ℕ
  maxBytes : ℕ
  deriving DecidableEq

structure AcceptedTx where
  txid : Hash256
  fee : UInt64
  size : ℕ
  deriving DecidableEq

inductive MempoolError
  | coinbase
  | duplicate (txid : Hash256)
  | duplicateInput (txid : Hash256) (index : UInt32)
  | oversized (size limit : ℕ)
  | malformed (context : String)
  | utxo (error : UtxoError)
  | conflictingSpend (outpoint : OutPoint) (existingTxid : Hash256)
  | invalidScript
  | sighash (error : SighashError)
  | atCapacity
  deriving DecidableEq

structure MempoolEntry where
  tx : Transaction
  feeRate : UInt64
  size : ℕ
  seq : ℕ
  deriving DecidableEq

structure Mempool where
  limits : MempoolLimits
  entries : EntryMap Hash256 MempoolEntry
  spends : EntryMap OutPoint Hash256
  totalBytes : ℕ
  nextSeq : ℕ

section

variable [Crypto]

/-! ## Validation of one transaction -/

def validateTxStructure (tx : Transaction) : Except MempoolError ℕ :=
  let size := tx.serializedSize
  if maxTransactionSerializedSize < size then
    .error (.oversized size maxTransactionSerializedSize)
  else if tx.outputs.isEmpty then .error (.malformed "transaction has no outputs")
  else if !tx.isCoinbase && tx.inputs.isEmpty then
    .error (.malformed "non-coinbase transaction has no inputs")
  else if tx.inputs.any fun input ↦ decide (maxScriptSize < input.scriptSig.length) then
    .error (.malformed "scriptSig exceeds maximum size")
  else if tx.outputs.any fun output ↦ decide (maxScriptSize < output.scriptPubkey.length) then
    .error (.malformed "scriptPubKey exceeds maximum size")
  else .ok size

/-- The outpoints seen so far are collected; the first one met twice is the error. -/
def duplicateInput : List TxInput → List OutPoint → Option UInt32
  | [], _ => none
  | input :: rest, seen =>
      if input.outPoint ∈ seen then some input.index
      else duplicateInput rest (input.outPoint :: seen)

def checkDuplicateInputs (tx : Transaction) : Except MempoolError Unit :=
  match duplicateInput tx.inputs [] with
  | some index => .error (.duplicateInput tx.txid index)
  | none => .ok ()

/-- The sums are formed as in `UtxoSet::validate_transaction`. -/
def computeFee (tx : Transaction) (view : UtxoSet) : Except UtxoError UInt64 := do
  let inputs ← UtxoSet.inputSum view tx.inputs 0
  let outputs ← UtxoSet.outputSum tx
  if inputs < outputs then .error (.inputOutputMismatch inputs outputs)
  else .ok (inputs - outputs)

def Chain.InputScriptError.toMempoolError : Chain.InputScriptError → MempoolError
  | .sighash e => .sighash e
  | .invalidScript => .invalidScript

def verifyScripts (tx : Transaction) (view : UtxoSet) : Except MempoolError Unit :=
  match Chain.prevScripts view tx.inputs with
  | .error e => .error (.utxo e)
  | .ok scripts =>
      match Chain.verifyInputs tx scripts 0 (tx.inputs.zip scripts) with
      | .error e => .error e.toMempoolError
      | .ok () => .ok ()

def isValidForView (tx : Transaction) (view : UtxoSet) : Bool :=
  (validateTxStructure tx).isOk && !tx.isCoinbase && (checkDuplicateInputs tx).isOk &&
    (view.validateTransaction tx).isOk && (verifyScripts tx view).isOk

namespace Mempool

def new (limits : MempoolLimits) : Mempool where
  limits := limits
  entries := ∅
  spends := ∅
  totalBytes := 0
  nextSeq := 0

def len (pool : Mempool) : ℕ := pool.entries.entries.length

def txids (pool : Mempool) : List Hash256 := pool.entries.keys

def contains (pool : Mempool) (txid : Hash256) : Bool := (pool.entries.lookup txid).isSome

def getTransaction (pool : Mempool) (txid : Hash256) : Option Transaction :=
  (pool.entries.lookup txid).map MempoolEntry.tx

/-- The entries by sequence number. -/
def ordered (pool : Mempool) : List MempoolEntry :=
  (pool.entries.entries.map Sigma.snd).insertionSort fun left right ↦ left.seq ≤ right.seq

def buildValidationView (pool : Mempool) (chainUtxo : UtxoSet) : UtxoSet :=
  chainUtxo.applyTransactions (pool.ordered.map MempoolEntry.tx)

/-- The view of `is_valid_tx` leaves out an entry with the id of the transaction itself. -/
def isValidTx (pool : Mempool) (tx : Transaction) (chainUtxo : UtxoSet) : Bool :=
  isValidForView tx (chainUtxo.applyTransactions
    ((pool.ordered.filter fun entry ↦ entry.tx.txid ≠ tx.txid).map MempoolEntry.tx))

/-! ## Removal -/

def removeEntry (pool : Mempool) (txid : Hash256) : Mempool :=
  match pool.entries.lookup txid with
  | none => pool
  | some entry =>
      { pool with
        entries := pool.entries.erase txid
        totalBytes := pool.totalBytes - entry.size
        spends := pool.spends.retain fun _ owner ↦ owner ≠ txid }

def removeEntries (pool : Mempool) (txids : List Hash256) : Mempool :=
  txids.foldl removeEntry pool

/-- The owners reached from `root` over the recorded spends, each an edge from
the transaction of its outpoint to its owner. -/
def descendantsOf (pool : Mempool) (root : Hash256) : List Hash256 :=
  reachableFrom (fun spend ↦ spend.1.txid) Sigma.snd pool.spends.entries root

def removeEntryAndDescendants (pool : Mempool) (txid : Hash256) : Mempool :=
  pool.removeEntries (txid :: pool.descendantsOf txid)

/-! ## Eviction -/

def wouldExceedLimits (pool : Mempool) (incomingSize : ℕ) : Bool :=
  decide (pool.limits.maxTxCount < pool.len + 1) ||
    decide (pool.limits.maxBytes < pool.totalBytes + incomingSize)

/-- The entry with the lowest fee rate, the older one first. -/
def lowestPriorityTxid (pool : Mempool) : Option Hash256 :=
  (pool.entries.entries.argmin fun entry ↦
    toLex (entry.2.feeRate.toNat, entry.2.seq)).map Sigma.fst

def shouldEvict (pool : Mempool) (victim : Hash256) (candidate : MempoolEntry) : Bool :=
  match pool.entries.lookup victim with
  | none => false
  | some entry =>
      if entry.feeRate < candidate.feeRate then true
      else if candidate.feeRate < entry.feeRate then false
      else decide (entry.seq < candidate.seq)

/-- `while self.would_exceed_limits(candidate.size)`.  Every turn removes an entry. -/
def makeRoomLoop (candidate : MempoolEntry) : ℕ → Mempool → Except MempoolError Unit × Mempool
  | 0, pool => (.error .atCapacity, pool)
  | n + 1, pool =>
      if pool.wouldExceedLimits candidate.size then
        match pool.lowestPriorityTxid with
        | none => (.error .atCapacity, pool)
        | some victim =>
            if pool.shouldEvict victim candidate then
              makeRoomLoop candidate n (pool.removeEntryAndDescendants victim)
            else (.error .atCapacity, pool)
      else (.ok (), pool)

def makeRoomFor (pool : Mempool) (candidate : MempoolEntry) :
    Except MempoolError Unit × Mempool :=
  makeRoomLoop candidate (pool.len + 1) pool

/-! ## Admission -/

def checkMempoolConflicts (pool : Mempool) : List TxInput → Except MempoolError Unit
  | [] => .ok ()
  | input :: rest =>
      match pool.spends.lookup input.outPoint with
      | some existingTxid => .error (.conflictingSpend input.outPoint existingTxid)
      | none => checkMempoolConflicts pool rest

def insertEntry (pool : Mempool) (txid : Hash256) (entry : MempoolEntry) : Mempool :=
  { pool with
    totalBytes := pool.totalBytes + entry.size
    nextSeq := pool.nextSeq + 1
    spends := entry.tx.inputs.foldl (fun spends input ↦ spends.insert input.outPoint txid)
      pool.spends
    entries := pool.entries.insert txid entry }

/-- The checks that `accept_tx` makes before it touches the pool: the fee and
the entry to be admitted. -/
def validateCandidate (pool : Mempool) (tx : Transaction) (chainUtxo : UtxoSet) :
    Except MempoolError (UInt64 × MempoolEntry) :=
  match validateTxStructure tx with
  | .error e => .error e
  | .ok size =>
      if tx.isCoinbase then .error .coinbase
      else if (pool.entries.lookup tx.txid).isSome then .error (.duplicate tx.txid)
      else
        match checkDuplicateInputs tx with
        | .error e => .error e
        | .ok () =>
            match pool.checkMempoolConflicts tx.inputs with
            | .error e => .error e
            | .ok () =>
                let view := pool.buildValidationView chainUtxo
                match view.validateTransaction tx with
                | .error e => .error (.utxo e)
                | .ok () =>
                    match computeFee tx view with
                    | .error e => .error (.utxo e)
                    | .ok fee =>
                        match verifyScripts tx view with
                        | .error e => .error e
                        | .ok () =>
                            let feeRate := if 0 < size then fee / UInt64.ofNat size else 0
                            .ok (fee, ⟨tx, feeRate, size, pool.nextSeq⟩)

def acceptTx (pool : Mempool) (tx : Transaction) (chainUtxo : UtxoSet) :
    Except MempoolError AcceptedTx × Mempool :=
  match pool.validateCandidate tx chainUtxo with
  | .error e => (.error e, pool)
  | .ok (fee, candidate) =>
      match pool.makeRoomFor candidate with
      | (.error e, pool) => (.error e, pool)
      | (.ok (), pool) =>
          (.ok ⟨tx.txid, fee, candidate.size⟩, pool.insertEntry tx.txid candidate)

/-! ## Synchronisation with the chain -/

/-- The outpoints that the transactions of the block spend, its coinbase apart. -/
def blockSpends (block : Block) : List OutPoint :=
  (block.transactions.filter fun tx ↦ !tx.isCoinbase).flatMap fun tx ↦
    tx.inputs.map TxInput.outPoint

/-- The transaction spends an outpoint of the list or an output of a removed transaction. -/
def spendsRemoved (spent : List OutPoint) (remove : List Hash256) (tx : Transaction) : Bool :=
  tx.inputs.any fun input ↦
    decide (input.outPoint ∈ spent) || decide (input.previousOutput ∈ remove)

/-- The set `remove` of `remove_for_block`: the transactions of the block and,
pass by pass over the entries, what spends from the set or the same outputs. -/
def removedFor (pool : Mempool) (block : Block) : List Hash256 :=
  saturateLoop Sigma.fst (fun remove entry ↦ spendsRemoved (blockSpends block) remove entry.2.tx)
    pool.entries.entries (pool.len + 1) (block.transactions.map Transaction.txid)

def removeForBlock (pool : Mempool) (block : Block) : Mempool :=
  pool.removeEntries (pool.removedFor block)

def findInvalidLoop : List MempoolEntry → UtxoSet → List Hash256
  | [], _ => []
  | entry :: rest, view =>
      if isValidForView entry.tx view then findInvalidLoop rest (view.applyTransaction entry.tx)
      else entry.tx.txid :: findInvalidLoop rest view

def findInvalidTxids (pool : Mempool) (chainUtxo : UtxoSet) : List Hash256 :=
  findInvalidLoop pool.ordered chainUtxo

/-- The `loop` of `revalidate_pool`; every turn but the last removes an entry. -/
def revalidateLoop (chainUtxo : UtxoSet) : ℕ → Mempool → Mempool
  | 0, pool => pool
  | n + 1, pool =>
      let invalid := pool.findInvalidTxids chainUtxo
      if invalid.isEmpty then pool else revalidateLoop chainUtxo n (pool.removeEntries invalid)

def revalidatePool (pool : Mempool) (chainUtxo : UtxoSet) : Mempool :=
  revalidateLoop chainUtxo (pool.len + 1) pool

/-- One turn of `restore_candidates`: the transactions refused are kept for the next. -/
def restorePass (chainUtxo : UtxoSet) : List Transaction → Mempool →
    List Transaction × Mempool
  | [], pool => ([], pool)
  | tx :: rest, pool =>
      match pool.acceptTx tx chainUtxo with
      | (.ok _, pool) => restorePass chainUtxo rest pool
      | (.error _, pool) =>
          let (remaining, pool) := restorePass chainUtxo rest pool
          (tx :: remaining, pool)

/-- The `loop` of `restore_candidates`.  A turn makes progress when it keeps
fewer transactions than it was given, so their number is fuel enough. -/
def restoreLoop (chainUtxo : UtxoSet) : ℕ → List Transaction → Mempool → Mempool
  | 0, _, pool => pool
  | n + 1, pending, pool =>
      let (remaining, pool) := restorePass chainUtxo pending pool
      if remaining.length = pending.length ∨ remaining.isEmpty then pool
      else restoreLoop chainUtxo n remaining pool

def restoreCandidates (pool : Mempool) (candidates : List Transaction) (chainUtxo : UtxoSet) :
    Mempool :=
  restoreLoop chainUtxo (candidates.length + 1) candidates pool

/-- The transactions of disconnected blocks that are to be admitted again. -/
def restorable (blocks : List Block) : List Transaction :=
  blocks.flatMap fun block ↦ (block.transactions.drop 1).filter fun tx ↦ !tx.isCoinbase

def synchronizeToChain (pool : Mempool) (chainUtxo : UtxoSet)
    (connectedBlocks disconnectedBlocks : List Block) : Mempool :=
  let pool := connectedBlocks.foldl removeForBlock pool
  (pool.revalidatePool chainUtxo).restoreCandidates (restorable disconnectedBlocks) chainUtxo

def resyncToActiveChain (pool : Mempool) (chain : Chain) (sinceEventSeq : ℕ) :
    Except DisconnectedBlockRecoveryError Unit × Mempool :=
  match chain.recoveryDisconnectedBlocks sinceEventSeq with
  | .error e => (.error e, pool)
  | .ok disconnected =>
      let active := (List.range (chain.height + 1)).filterMap chain.activeBlockAt
      let pool := active.foldl removeForBlock pool
      (.ok (), (pool.revalidatePool chain.utxo).restoreCandidates (restorable disconnected)
        chain.utxo)

def serveTransaction (pool : Mempool) (txid : Hash256) (chainUtxo : UtxoSet) :
    Option Transaction × Mempool :=
  match pool.getTransaction txid with
  | none => (none, pool)
  | some tx =>
      if pool.isValidTx tx chainUtxo then (some tx, pool) else (none, pool.removeEntry txid)

/-- The blocks that the connect events of a list name. -/
def connectedBlocks (chain : Chain) (events : List ChainEvent) : List Block :=
  events.filterMap fun event ↦
    match event with
    | .blockConnected _ hash _ => chain.blockByHash hash
    | _ => none

/-- The blocks that the disconnect events of a list name. -/
def disconnectedBlocks (chain : Chain) (events : List ChainEvent) : List Block :=
  events.filterMap fun event ↦
    match event with
    | .blockDisconnected _ hash => chain.blockByHash hash
    | _ => none

def applyChainEvents (pool : Mempool) (events : List ChainEvent) (chain : Chain) : Mempool :=
  pool.synchronizeToChain chain.utxo (connectedBlocks chain events)
    (disconnectedBlocks chain events)

end Mempool

end

end Bitrst
