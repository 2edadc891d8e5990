import Bitrst.Difficulty
import Bitrst.Events
import Bitrst.Utxo
import Mathlib.Data.List.AList
import Mathlib.Data.List.MinMax
import Mathlib.Data.List.Sort

/-!
# The block chain

`chain.rs`: validation, the block index, orphans and reorganisation.  A method
on `&mut self` takes the chain and returns its result together with the chain
it leaves behind, also when the result is an error.  Heights, `u32` in the
source, and sequence numbers, `u64` there, are natural numbers.

A hash map iterates its entries in an unspecified order, so the calls that
iterate the orphan map take an `OrphanOrder`.
-/

namespace Bitrst

open Support

structure BlockMeta where
  block : Block
  height : ℕ
  work : ChainWork
  undo : List TxUndo
  deriving DecidableEq

structure OrphanEntry where
  block : Block
  receivedAt : ℕ

abbrev OrphanMap := AList fun _ : Hash256 ↦ OrphanEntry

/-- An iteration order of the orphan map. -/
structure OrphanOrder where
  iter : List (Sigma fun _ : Hash256 ↦ OrphanEntry) → List (Sigma fun _ : Hash256 ↦ OrphanEntry)
  perm : ∀ entries, (iter entries).Perm entries

structure Chain where
  blocks : List Block
  activeHashes : Finset Hash256
  known : HashMap Hash256 BlockMeta
  totalWork : ChainWork
  utxo : UtxoSet
  orphans : OrphanMap
  orphanReceiveSeq : ℕ
  networkTime : UInt32
  store : HashMap Hash256 Block
  eventJournal : ChainEventJournal
  disconnectedJournal : DisconnectedBlockJournal

inductive ConnectResult
  | connected (height : ℕ) (hash : Hash256)
  | orphaned (hash : Hash256)
  | reorganized (oldTip newTip : Hash256)
  | sideChain (height : ℕ) (hash : Hash256)
  deriving DecidableEq

inductive ChainError
  | invalidProofOfWork
  | merkleRootMismatch
  | invalidCoinbaseCount (count : ℕ)
  | invalidTimestamp (blockTime medianPast networkTime : UInt32)
  | unexpectedBits (height : ℕ) (expected actual : UInt32)
  | utxo (error : UtxoError)
  | difficulty (error : DifficultyError)
  | blockAlreadyKnown
  | blockTooLarge
  | tooManyTransactions
  | scriptTooLarge
  | missingAncestor
  | noActiveTip
  | invalidNetworkTime
  | invalidScript
  | sighash (error : SighashError)
  deriving DecidableEq

/-- A call that does not return `Ok`: it returns an error, panics, or its loop
never ends. -/
inductive Stop
  | error (e : ChainError)
  | panic
  | hang
  deriving DecidableEq

abbrev ChainResult (α : Type) := Except Stop α

def maxOrphanBlocks : ℕ := 256

section

variable [Crypto]

/-- Per-block work from compact `bits`. -/
def blockWork (bits : UInt32) : Except ChainError ChainWork :=
  match Target.fromBits bits with
  | none => .error .invalidProofOfWork
  | some target =>
      match target.toWork with
      | none => .error .invalidProofOfWork
      | some work => .ok ⟨work⟩

namespace Chain

def height (chain : Chain) : ℕ := chain.blocks.length - 1

def tipHash (chain : Chain) : Hash256 := (chain.blocks.getLast?.map Block.hash).getD zeroHash

def activeBlockAt (chain : Chain) (height : ℕ) : Option Block := chain.blocks[height]?

def findHeight (chain : Chain) (hash : Hash256) : Option ℕ :=
  (chain.known.lookup hash).map BlockMeta.height

def blockByHash (chain : Chain) (hash : Hash256) : Option Block :=
  match chain.known.lookup hash with
  | some entry => some entry.block
  | none => (chain.orphans.lookup hash).map OrphanEntry.block

def pushEvent (chain : Chain) (event : ChainEvent) : Chain :=
  { chain with eventJournal := chain.eventJournal.push event }

/-! ## Validation -/

def validateBlockLimits (block : Block) : Except ChainError Unit :=
  if maxBlockSerializedSize < block.serializedSize then .error .blockTooLarge
  else if maxTransactionsPerBlock < block.transactions.length then .error .tooManyTransactions
  else if block.transactions.any fun tx ↦
      tx.inputs.any (fun input ↦ decide (maxScriptSize < input.scriptSig.length)) ||
        tx.outputs.any (fun output ↦ decide (maxScriptSize < output.scriptPubkey.length)) then
    .error .scriptTooLarge
  else .ok ()

/-- The times of the block with hash `blockHash` and its ancestors, at most `n` of them. -/
def pastTimes (chain : Chain) : ℕ → Hash256 → List UInt32
  | 0, _ => []
  | n + 1, blockHash =>
      match chain.known.lookup blockHash with
      | none => []
      | some entry =>
          entry.block.header.time :: pastTimes chain n entry.block.header.prevBlockhash

def medianPastTimeBefore (chain : Chain) (blockHash : Hash256) : UInt32 :=
  let times := chain.pastTimes 11 blockHash
  (times.insertionSort (· ≤ ·)).getD (times.length / 2) 0

/-- The bits demanded at `height`, read from the active chain by position.  The
second index is out of range, a panic, when the active chain is too short. -/
def expectedBits [Features] (chain : Chain) (height : ℕ) (blockBits : UInt32) :
    ChainResult UInt32 :=
  if height = 0 then .ok blockBits
  else if height % difficultyAdjustmentInterval ≠ 0 then
    match chain.blocks.getLast? with
    | none => .error (.error .noActiveTip)
    | some tip => .ok tip.header.bits
  else
    let periodStart := height - difficultyAdjustmentInterval
    let periodEnd := height
    if chain.blocks.length ≤ periodStart then .ok maxCompactBits
    else
      match chain.blocks[periodStart]?, chain.blocks[periodEnd - 1]? with
      | some first, some last =>
          let actualTimespan := saturatingSubU32 last.header.time first.header.time
          match adjustBits last.header.bits actualTimespan with
          | .error e => .error (.error (.difficulty e))
          | .ok bits => .ok bits
      | _, _ => .error .panic

def coinbaseCount (block : Block) : ℕ := (block.transactions.filter Transaction.isCoinbase).length

def firstIsCoinbase (block : Block) : Bool :=
  match block.transactions with
  | tx :: _ => tx.isCoinbase
  | [] => false

/-- The proof of work meets the target encoded in the header. -/
def meetsTarget (block : Block) : Bool :=
  match Target.fromBits block.header.bits with
  | none => false
  | some target => target.meets block.hash

def validateBlockHeaderForParent [Features] (chain : Chain) (block : Block)
    (parent : Option Block) (parentHash : Option Hash256) (height : ℕ) : ChainResult Unit :=
  if !meetsTarget block then .error (.error .invalidProofOfWork)
  else if !block.headerMerkleRootMatches then .error (.error .merkleRootMismatch)
  else if coinbaseCount block ≠ 1 || !firstIsCoinbase block then
    .error (.error (.invalidCoinbaseCount (coinbaseCount block)))
  else
    let timestamp : ChainResult Unit :=
      match parent, parentHash with
      | some _, some parentHash =>
          let medianPast := chain.medianPastTimeBefore parentHash
          if !validBlockTime block.header.time medianPast chain.networkTime then
            .error (.error
              (.invalidTimestamp block.header.time medianPast chain.networkTime))
          else .ok ()
      | _, _ => .ok ()
    match timestamp with
    | .error e => .error e
    | .ok () =>
        match chain.expectedBits height block.header.bits with
        | .error e => .error e
        | .ok expectedBits =>
            if block.header.bits ≠ expectedBits then
              .error (.error (.unexpectedBits height expectedBits block.header.bits))
            else .ok ()

/-- The set of outpoints spent in the block grows by the inputs of one transaction. -/
def spendOnce : List TxInput → List OutPoint → Except ChainError (List OutPoint)
  | [], spent => .ok spent
  | input :: rest, spent =>
      if input.outPoint ∈ spent then
        .error (.utxo (.duplicateSpend input.previousOutput input.index))
      else spendOnce rest (input.outPoint :: spent)

def prevScripts (view : UtxoSet) : List TxInput → Except UtxoError (List Bytes)
  | [] => .ok []
  | input :: rest =>
      match view.lookup input.outPoint with
      | none => .error (.missingInput input.previousOutput input.index)
      | some entry =>
          match prevScripts view rest with
          | .error e => .error e
          | .ok scripts => .ok (entry.scriptPubkey :: scripts)

/-- Why an input's script is refused. -/
inductive InputScriptError
  | sighash (error : SighashError)
  | invalidScript
  deriving DecidableEq

/-- Every input with a nonempty spent script runs its scripts; the list pairs
each input from index `i` on with its spent script. -/
def verifyInputs (tx : Transaction) (scripts : List Bytes) :
    ℕ → List (TxInput × Bytes) → Except InputScriptError Unit
  | _, [] => .ok ()
  | i, (input, scriptPubkey) :: rest =>
      if scriptPubkey.isEmpty then verifyInputs tx scripts (i + 1) rest
      else
        match sighashAll tx i scripts with
        | .error e => .error (.sighash e)
        | .ok sighash =>
            match verifyScript input.scriptSig scriptPubkey sighash with
            | .error _ => .error .invalidScript
            | .ok () => verifyInputs tx scripts (i + 1) rest

def InputScriptError.toChainError : InputScriptError → ChainError
  | .sighash e => .sighash e
  | .invalidScript => .invalidScript

/-- One turn of the transaction loop: the outpoints spent so far and the view after it. -/
def validateBlockTransaction (tx : Transaction) (view : UtxoSet) (spent : List OutPoint) :
    Except ChainError (List OutPoint) :=
  match if tx.isCoinbase then .ok spent else spendOnce tx.inputs spent with
  | .error e => .error e
  | .ok spent =>
      match view.validateTransaction tx with
      | .error e => .error (.utxo e)
      | .ok () =>
          if tx.isCoinbase then .ok spent
          else
            match prevScripts view tx.inputs with
            | .error e => .error (.utxo e)
            | .ok scripts =>
                match verifyInputs tx scripts 0 (tx.inputs.zip scripts) with
                | .error e => .error e.toChainError
                | .ok () => .ok spent

def validateBlockTransactionsLoop : List Transaction → UtxoSet → List OutPoint →
    Except ChainError Unit
  | [], _, _ => .ok ()
  | tx :: rest, view, spent =>
      match validateBlockTransaction tx view spent with
      | .error e => .error e
      | .ok spent => validateBlockTransactionsLoop rest (view.applyTransaction tx) spent

def validateBlockTransactionsForUtxo (block : Block) (utxo : UtxoSet) : Except ChainError Unit :=
  validateBlockTransactionsLoop block.transactions utxo []

def validateBlockForParent [Features] (chain : Chain) (block : Block) (parent : Option Block)
    (parentHash : Option Hash256) (height : ℕ) : ChainResult Unit :=
  match chain.validateBlockHeaderForParent block parent parentHash height with
  | .error e => .error e
  | .ok () =>
      match validateBlockTransactionsForUtxo block chain.utxo with
      | .error e => .error (.error e)
      | .ok () => .ok ()

/-! ## Connecting and disconnecting at the tip -/

/-- The updates made whenever a block becomes the tip: its transactions are
applied, it is stored, indexed with fresh undo data and announced. -/
def pushTip (chain : Chain) (block : Block) (height : ℕ) (work : ChainWork) : Chain :=
  { chain with
    utxo := chain.utxo.applyTransactions block.transactions
    store := Finmap.insert block.hash block chain.store
    known := Finmap.insert block.hash
      ⟨block, height, work, chain.utxo.transactionUndos block.transactions⟩ chain.known
    blocks := chain.blocks ++ [block]
    activeHashes := insert block.hash chain.activeHashes
    eventJournal := chain.eventJournal.push
      (.blockConnected height block.hash block.transactions.length) }

def disconnectTipBlock (chain : Chain) : ChainResult Unit × Chain :=
  match chain.blocks.getLast? with
  | none => (.error (.error .noActiveTip), chain)
  | some block =>
      let hash := block.hash
      let popped := { chain with
        blocks := chain.blocks.dropLast
        activeHashes := chain.activeHashes.erase hash }
      let height := popped.height + 1
      match popped.known.lookup hash with
      | none => (.error (.error .missingAncestor), popped)
      | some entry =>
          (.ok (), { popped with
            utxo := entry.undo.foldr (fun undo utxo ↦ utxo.disconnectUndo undo) popped.utxo
            totalWork :=
              ((popped.blocks.getLast?.bind fun tip ↦ popped.known.lookup tip.hash).map
                BlockMeta.work).getD ChainWork.zero
            eventJournal := popped.eventJournal.push (.blockDisconnected height hash)
            disconnectedJournal :=
              popped.disconnectedJournal.record popped.eventJournal.nextSeq block })

/-! ## Reorganisation -/

/-- The path, oldest block first, grows at its front until its parent is active. -/
def collectForkPathLoop (chain : Chain) : ℕ → Block → List Block →
    ChainResult (List Block × Hash256)
  | 0, _, _ => .error .hang
  | n + 1, tip, path =>
      let parentHash := tip.header.prevBlockhash
      if parentHash ∈ chain.activeHashes then .ok (tip :: path, parentHash)
      else
        match chain.known.lookup parentHash with
        | none => .error (.error .missingAncestor)
        | some entry => collectForkPathLoop chain n entry.block (tip :: path)

/-- A walk longer than the number of known blocks has met one of them twice
and goes round forever. -/
def collectForkPath (chain : Chain) (block : Block) : ChainResult (List Block × Hash256) :=
  collectForkPathLoop chain (chain.known.keys.card + 2) block []

/-- `while self.tip_hash() != fork_hash`, counting the blocks disconnected. -/
def disconnectLoop (forkHash : Hash256) : ℕ → ℕ → Chain → ChainResult ℕ × Chain
  | 0, _, chain => (.error .hang, chain)
  | n + 1, disconnected, chain =>
      if chain.tipHash ≠ forkHash then
        match chain.disconnectTipBlock with
        | (.error e, chain) => (.error e, chain)
        | (.ok (), chain) => disconnectLoop forkHash n (disconnected + 1) chain
      else (.ok disconnected, chain)

/-- The recorded work of the parent, or zero. -/
def parentWork (chain : Chain) (block : Block) : ChainWork :=
  ((chain.known.lookup block.header.prevBlockhash).map BlockMeta.work).getD ChainWork.zero

/-- `for block in fork_path`.  The work is computed after the transactions
are applied, so its error leaves them applied. -/
def connectForkPath [Features] : List Block → Chain → ChainResult Unit × Chain
  | [], chain => (.ok (), chain)
  | block :: rest, chain =>
      let height := chain.height + 1
      match chain.validateBlockForParent block chain.blocks.getLast?
          (some block.header.prevBlockhash) height with
      | .error e => (.error e, chain)
      | .ok () =>
          match blockWork block.header.bits with
          | .error e =>
              (.error (.error e),
                { chain with utxo := chain.utxo.applyTransactions block.transactions })
          | .ok work =>
              connectForkPath rest
                (chain.pushTip block height ((chain.parentWork block).add work))

def tryReorgToBlock [Features] (chain : Chain) (forkPath : List Block) (forkHash : Hash256)
    (newTipWork : ChainWork) : ChainResult ℕ × Chain :=
  match chain.findHeight forkHash with
  | none => (.error (.error .missingAncestor), chain)
  | some _ =>
      match disconnectLoop forkHash (chain.blocks.length + 2) 0 chain with
      | (.error e, chain) => (.error e, chain)
      | (.ok disconnected, chain) =>
          match connectForkPath forkPath chain with
          | (.error e, chain) => (.error e, chain)
          | (.ok (), chain) => (.ok disconnected, { chain with totalWork := newTipWork })

/-- On an error the active list, its hashes, the outputs and the work are restored. -/
def reorgToBlock [Features] (chain : Chain) (newBlock : Block) (newTipWork : ChainWork) :
    ChainResult ℕ × Chain :=
  match chain.collectForkPath newBlock with
  | .error e => (.error e, chain)
  | .ok (forkPath, forkHash) =>
      match chain.tryReorgToBlock forkPath forkHash newTipWork with
      | (.error e, failed) =>
          (.error e, { failed with
            blocks := chain.blocks
            utxo := chain.utxo
            totalWork := chain.totalWork
            activeHashes := chain.activeHashes })
      | (.ok depth, reorganized) => (.ok depth, reorganized)

/-! ## Orphans -/

def evictOldestOrphan (order : OrphanOrder) (chain : Chain) : Chain :=
  match (order.iter chain.orphans.entries).argmin (fun entry ↦ entry.2.receivedAt) with
  | none => chain
  | some entry =>
      { chain with
        orphans := chain.orphans.erase entry.1
        eventJournal := chain.eventJournal.push (.orphanEvicted entry.1 .poolFull) }

def insertOrphan (order : OrphanOrder) (chain : Chain) (block : Block) : Chain :=
  let chain :=
    if maxOrphanBlocks ≤ chain.orphans.entries.length then chain.evictOldestOrphan order
    else chain
  let receivedAt := chain.orphanReceiveSeq + 1
  let orphans := chain.orphans.insert block.hash ⟨block, receivedAt⟩
  { chain with
    orphanReceiveSeq := receivedAt
    orphans := orphans
    eventJournal := chain.eventJournal.push
      (.orphanAdded block.hash orphans.entries.length) }

/-- `if let Some(entry) = self.orphans.remove(&hash)`: the block joins the queue. -/
def dequeueOrphan (state : OrphanMap × List Block) (hash : Hash256) : OrphanMap × List Block :=
  match state.1.lookup hash with
  | some entry => (state.1.erase hash, state.2 ++ [entry.block])
  | none => state

/-- The orphans whose parent is known move to the back of the queue. -/
def enqueueReadyOrphans (order : OrphanOrder) (chain : Chain) (queue : List Block) :
    Chain × List Block :=
  let ready := ((order.iter chain.orphans.entries).filter fun entry ↦
    (chain.known.lookup entry.2.block.header.prevBlockhash).isSome).map Sigma.fst
  let (orphans, queue) := ready.foldl dequeueOrphan (chain.orphans, queue)
  ({ chain with orphans := orphans }, queue)

/-! ## Connecting a block -/

/-- `connect_block_inner`; `processOrphans` is what it runs once a block has
become the tip. -/
def connectBlockInner [Features] (order : OrphanOrder)
    (processOrphans : Chain → ChainResult Unit × Chain) (block : Block) (chain : Chain) :
    ChainResult ConnectResult × Chain :=
  match validateBlockLimits block with
  | .error e => (.error (.error e), chain)
  | .ok () =>
      let hash := block.hash
      if (chain.known.lookup hash).isSome ∨ (chain.orphans.lookup hash).isSome then
        (.error (.error .blockAlreadyKnown), chain)
      else
        let parentHash := block.header.prevBlockhash
        match chain.known.lookup parentHash with
        | none => (.ok (.orphaned hash), chain.insertOrphan order block)
        | some parentMeta =>
            let height := parentMeta.height + 1
            match chain.validateBlockForParent block (some parentMeta.block)
                (some parentHash) height with
            | .error e => (.error e, chain)
            | .ok () =>
                match blockWork block.header.bits with
                | .error e => (.error (.error e), chain)
                | .ok work =>
                    let candidateWork := parentMeta.work.add work
                    let tipHash := chain.tipHash
                    if parentHash = tipHash then
                      let extended :=
                        { chain.pushTip block height candidateWork with
                          totalWork := candidateWork }
                      match processOrphans extended with
                      | (.error e, chain) => (.error e, chain)
                      | (.ok (), chain) => (.ok (.connected height hash), chain)
                    else if candidateWork.le chain.totalWork then
                      (.ok (.sideChain height hash),
                        { chain with
                          known := Finmap.insert hash ⟨block, height, candidateWork, []⟩
                            chain.known })
                    else
                      match chain.reorgToBlock block candidateWork with
                      | (.error e, chain) => (.error e, chain)
                      | (.ok depth, chain) =>
                          let newTip := chain.tipHash
                          match processOrphans
                              (chain.pushEvent (.chainReorg depth tipHash newTip)) with
                          | (.error e, chain) => (.error e, chain)
                          | (.ok (), chain) => (.ok (.reorganized tipHash newTip), chain)

/-- `connect_block_inner(block, false)`. -/
def connectAlone [Features] (order : OrphanOrder) (block : Block) (chain : Chain) :
    ChainResult ConnectResult × Chain :=
  connectBlockInner order (fun chain ↦ (.ok (), chain)) block chain

/-- The `while` loop of `process_orphans`; every turn takes one block from the
queue or, before, from the orphan pool. -/
def processOrphansLoop [Features] (order : OrphanOrder) :
    ℕ → List Block → Chain → ChainResult Unit × Chain
  | 0, _, chain => (.error .hang, chain)
  | _ + 1, [], chain => (.ok (), chain)
  | n + 1, block :: queue, chain =>
      match connectAlone order block chain with
      | (.error e, chain) => (.error e, chain)
      | (.ok _, chain) =>
          let (chain, queue) := chain.enqueueReadyOrphans order queue
          processOrphansLoop order n queue chain

def processOrphans [Features] (order : OrphanOrder) (chain : Chain) :
    ChainResult Unit × Chain :=
  let fuel := chain.orphans.entries.length + 1
  let (chain, queue) := chain.enqueueReadyOrphans order []
  processOrphansLoop order fuel queue chain

def connectBlock [Features] (order : OrphanOrder) (block : Block) (chain : Chain) :
    ChainResult ConnectResult × Chain :=
  connectBlockInner order (processOrphans order) block chain

/-! ## Creation and the other operations -/

def withJournalCapacities [Features] (genesis : Block) (networkTime : UInt32)
    (eventCapacity : ℕ) : ChainResult Chain :=
  if networkTime = 0 then .error (.error .invalidNetworkTime)
  else
    let chain : Chain :=
      { blocks := []
        activeHashes := ∅
        known := ∅
        totalWork := ChainWork.zero
        utxo := ∅
        orphans := ∅
        orphanReceiveSeq := 0
        networkTime := networkTime
        store := ∅
        eventJournal := ChainEventJournal.withCapacity eventCapacity
        disconnectedJournal := DisconnectedBlockJournal.withCapacity eventCapacity }
    match validateBlockLimits genesis with
    | .error e => .error (.error e)
    | .ok () =>
        match chain.validateBlockForParent genesis none none 0 with
        | .error e => .error e
        | .ok () =>
            match blockWork genesis.header.bits with
            | .error e => .error (.error e)
            | .ok work => .ok { chain.pushTip genesis 0 work with totalWork := work }

/-- `new_genesis` is the same code with the default capacities, which are equal. -/
def newGenesis [Features] (genesis : Block) (networkTime : UInt32) : ChainResult Chain :=
  withJournalCapacities genesis networkTime defaultChainEventJournalCapacity

def setNetworkTime (networkTime : UInt32) (chain : Chain) : ChainResult Unit × Chain :=
  if networkTime = 0 then (.error (.error .invalidNetworkTime), chain)
  else (.ok (), { chain with networkTime := networkTime })

def takeEvents (chain : Chain) : Except ChainEventCursorError (List ChainEvent) × Chain :=
  let (events, journal) := chain.eventJournal.takeEvents
  (events, { chain with eventJournal := journal })

def recoveryDisconnectedBlocks (chain : Chain) (sinceEventSeq : ℕ) :
    Except DisconnectedBlockRecoveryError (List Block) :=
  chain.disconnectedJournal.blocksSince sinceEventSeq

end Chain

end

end Bitrst
