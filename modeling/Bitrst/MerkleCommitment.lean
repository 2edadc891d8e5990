import Bitrst.BlockCodec
import Bitrst.BlockTransactions
import Bitrst.ChainCoherence
import Bitrst.Support.MerkleTree

/-!
# What a header commits to

Two blocks with one header have one Merkle root.  When no two of the messages
hashed for it collide, the root fixes a list of ids of a given length and so the
transactions of a given number.  Among blocks that connect only transactions
without inputs, or a coinbase transaction as long as two hashes, leave the
number open.
-/

namespace Bitrst

open Support

section

variable [Crypto]

/-! ## Merkle roots -/

def hashPair (left right : Hash256) : Hash256 := sha256d (left.toList ++ right.toList)

theorem merkleLevel_eq (nodes : List Hash256) :
    merkleLevel nodes = MerkleTree.level hashPair nodes := by
  induction nodes using merkleLevel.induct with
  | case1 left right rest ih =>
      rw [merkleLevel, ih]
      rfl
  | case2 left => rfl
  | case3 => rfl

theorem merkleReduce_root {n : ℕ} {nodes : List Hash256} {root : Hash256}
    (hlength : nodes.length ≤ n) (h : (merkleReduce n nodes).head? = some root) :
    MerkleTree.Root hashPair nodes root := by
  induction n generalizing nodes with
  | zero =>
      obtain rfl := List.eq_nil_of_length_eq_zero (Nat.le_zero.mp hlength)
      cases h
  | succ n ih =>
      rw [merkleReduce] at h
      split at h
      · rename_i hlong
        rw [merkleLevel_eq] at h
        have hlevel := MerkleTree.length_level hashPair nodes
        exact .join hlong (ih (by omega) h)
      · rename_i hshort
        cases nodes with
        | nil => cases h
        | cons first rest =>
            obtain rfl := Option.some.inj h
            have hrest : rest = [] := by
              apply List.eq_nil_of_length_eq_zero
              rw [List.length_cons] at hshort
              omega
            rw [hrest]
            exact .leaf first

theorem merkleRoot_root {txids : List Hash256} {root : Hash256}
    (h : merkleRoot txids = some root) : MerkleTree.Root hashPair txids root := by
  unfold merkleRoot at h
  split at h
  · cases h
  · exact merkleReduce_root le_rfl h

/-- Joining level by level leaves a node. -/
theorem merkleReduce_ne_nil (n : ℕ) {nodes : List Hash256} (hnodes : nodes ≠ []) :
    merkleReduce n nodes ≠ [] := by
  induction n generalizing nodes with
  | zero => exact hnodes
  | succ n ih =>
      rw [merkleReduce]
      split
      · rename_i hlong
        apply ih
        apply List.ne_nil_of_length_pos
        rw [merkleLevel_eq, MerkleTree.length_level]
        omega
      · exact hnodes

/-- Lists of one up to the allowed number of ids have a root. -/
theorem exists_merkleRoot {txids : List Hash256} (hpos : 1 ≤ txids.length)
    (hmax : txids.length ≤ maxTransactionsPerBlock) :
    ∃ root, merkleRoot txids = some root := by
  have hne : txids ≠ [] := List.ne_nil_of_length_pos hpos
  have hallowed : ¬ (txids.isEmpty || decide (maxTransactionsPerBlock < txids.length)) = true := by
    simp only [Bool.or_eq_true, List.isEmpty_iff, decide_eq_true_eq, not_or]
    exact ⟨hne, Nat.not_lt.mpr hmax⟩
  obtain ⟨root, rest, hroot⟩ := List.exists_cons_of_ne_nil (merkleReduce_ne_nil txids.length hne)
  exact ⟨root, by rw [merkleRoot, if_neg hallowed, hroot, List.head?_cons]⟩

/-- The messages of two hashes each that are hashed on the way to the Merkle root. -/
def Combined (txids : List Hash256) : Set Bytes :=
  {message | ∃ pair, MerkleTree.Joined hashPair txids pair ∧
    message = pair.1.toList ++ pair.2.toList}

theorem length_combined {txids : List Hash256} {message : Bytes} (h : message ∈ Combined txids) :
    message.length = 64 := by
  obtain ⟨pair, -, rfl⟩ := h
  rw [List.length_append, List.Vector.toList_length, List.Vector.toList_length]

/-- Two hashes beside each other are told apart. -/
theorem apart_of_injOn {txids txids' : List Hash256} {messages : Set Bytes}
    (hinj : Set.InjOn sha256d messages) (hsub : Combined txids ∪ Combined txids' ⊆ messages) :
    MerkleTree.Apart hashPair txids txids' := by
  have hcombined : ∀ pair, (MerkleTree.Joined hashPair txids pair ∨
      MerkleTree.Joined hashPair txids' pair) → pair.1.toList ++ pair.2.toList ∈ messages :=
    fun pair hpair ↦ hsub (hpair.imp (fun h ↦ ⟨pair, h, rfl⟩) fun h ↦ ⟨pair, h, rfl⟩)
  intro pair pair' hpair hpair' heq
  have hbytes := hinj (hcombined pair hpair) (hcombined pair' hpair') heq
  obtain ⟨hleft, hright⟩ := List.append_inj hbytes (by
    rw [List.Vector.toList_length, List.Vector.toList_length])
  exact Prod.ext (Subtype.ext hleft) (Subtype.ext hright)

/-- Lists with as many ids have one Merkle root only if they are equal, when no two of the
messages of 64 bytes that are hashed for their roots collide. -/
theorem merkleRoot_binds {txids txids' : List Hash256} (hlength : txids.length = txids'.length)
    (hpos : 1 ≤ txids.length) (hmax : txids.length ≤ maxTransactionsPerBlock)
    (hinj : Set.InjOn sha256d
      {message | message.length = 64 ∧ message ∈ Combined txids ∪ Combined txids'}) :
    (merkleRoot txids).isSome ∧ (merkleRoot txids').isSome ∧
      (merkleRoot txids = merkleRoot txids' ↔ txids = txids') := by
  obtain ⟨root, hroot⟩ := exists_merkleRoot hpos hmax
  obtain ⟨root', hroot'⟩ := exists_merkleRoot (hlength ▸ hpos) (hlength ▸ hmax)
  refine ⟨Option.isSome_of_mem hroot, Option.isSome_of_mem hroot', fun heq ↦ ?_,
    congrArg merkleRoot⟩
  have hapart : MerkleTree.Apart hashPair txids txids' :=
    apart_of_injOn hinj fun _ h ↦ ⟨h.elim length_combined length_combined, h⟩
  have hsame : merkleRoot txids' = some root := heq.symm.trans hroot
  exact (merkleRoot_root hroot).unique (merkleRoot_root hsame) hlength hapart

theorem Block.headerMerkleRootMatches_root {block : Block}
    (h : block.headerMerkleRootMatches = true) :
    MerkleTree.Root hashPair (block.transactions.map Transaction.txid)
      block.header.merkleRoot := by
  unfold headerMerkleRootMatches at h
  split at h
  · rename_i root hroot
    unfold merkleRootFromTransactions at hroot
    split at hroot
    · cases hroot
    · rw [← eq_of_beq h]
      exact merkleRoot_root hroot
  · cases h

/-! ## Collisions -/

/-- What is hashed on the way from transactions to their Merkle root. -/
def Hashed (txs : List Transaction) (message : Bytes) : Prop :=
  (∃ tx ∈ txs, message = tx.serialize) ∨
    ∃ pair, MerkleTree.Joined hashPair (txs.map Transaction.txid) pair ∧
      message = pair.1.toList ++ pair.2.toList

/-- `sha256d` is injective on what is hashed for the roots of the two blocks. -/
def CollisionFree (block block' : Block) : Prop :=
  Set.InjOn sha256d
    {message | Hashed block.transactions message ∨ Hashed block'.transactions message}

namespace CollisionFree

variable {block block' : Block}

theorem symm (h : CollisionFree block block') : CollisionFree block' block :=
  fun _ hm _ hm' ↦ h (Or.symm hm) (Or.symm hm')

theorem apart (h : CollisionFree block block') :
    MerkleTree.Apart hashPair (block.transactions.map Transaction.txid)
      (block'.transactions.map Transaction.txid) :=
  apart_of_injOn h fun _ hmessage ↦ hmessage.imp Or.inr Or.inr

/-- Transactions of the two blocks with one id are equal. -/
theorem txid_injective (h : CollisionFree block block')
    (hsized : ∀ tx ∈ block.transactions ++ block'.transactions, tx.Sized)
    {tx tx' : Transaction} (htx : tx ∈ block.transactions ++ block'.transactions)
    (htx' : tx' ∈ block.transactions ++ block'.transactions) (heq : tx.txid = tx'.txid) :
    tx = tx' := by
  have hhashed : ∀ tx ∈ block.transactions ++ block'.transactions,
      Hashed block.transactions tx.serialize ∨ Hashed block'.transactions tx.serialize :=
    fun tx hmem ↦ (List.mem_append.mp hmem).imp (fun hm ↦ .inl ⟨tx, hm, rfl⟩)
      fun hm ↦ .inl ⟨tx, hm, rfl⟩
  have hbytes := h (hhashed tx htx) (hhashed tx' htx') heq
  exact (Transaction.unique tx tx' [] [] (hsized tx htx) (hsized tx' htx')
    (congrArg (· ++ []) hbytes)).1

end CollisionFree

/-! ## What the checks of a block exclude -/

/-- The checks that a connected block has passed, of its header and its transactions. -/
structure Block.Checked (block : Block) : Prop where
  limits : Chain.validateBlockLimits block = .ok ()
  root : block.headerMerkleRootMatches = true
  coinbaseCount : Chain.coinbaseCount block = 1
  firstIsCoinbase : Chain.firstIsCoinbase block = true
  spent_nodup : (block.transactions.flatMap Transaction.spentOutPoints).Nodup

theorem Chain.Admitted.checked [Features] {chain : Chain} {block : Block} {parent : BlockMeta}
    {work : ChainWork} (h : Admitted chain block parent work) : block.Checked := by
  obtain ⟨hheader, htransactions⟩ := validateBlockForParent_ok_iff.mp h.valid
  exact ⟨h.limits, hheader.root, hheader.coinbaseCount, hheader.firstIsCoinbase,
    (validateBlockTransactionsForUtxo_ok_iff.mp htransactions).1⟩

theorem Chain.connectBlock_connected [Features] {chain : Chain} {order : OrphanOrder}
    {block : Block} {height : ℕ} {hash : Hash256}
    (h : (connectBlock order block chain).1 = .ok (.connected height hash)) :
    ∃ parent work, Admitted chain block parent work :=
  connectBlock_admitted h fun _ heq ↦ nomatch heq

end

namespace Block.Checked

variable [Crypto] {block : Block}

theorem sized (h : block.Checked) {tx : Transaction} (htx : tx ∈ block.transactions) :
    tx.Sized := by
  obtain ⟨-, -, hscripts⟩ := Chain.validateBlockLimits_ok_iff.mp h.limits
  have hle := Chain.serializedSize_le_of_limits h.limits htx
  have hmax : maxBlockSerializedSize < 2 ^ 64 := by decide
  have hscript : maxScriptSize < 2 ^ 64 := by decide
  obtain ⟨hinputs, houtputs⟩ := hscripts tx htx
  exact ⟨(tx.length_inputs_le_serializedSize.trans hle).trans_lt hmax,
    (tx.length_outputs_le_serializedSize.trans hle).trans_lt hmax,
    fun input hinput ↦ (hinputs input hinput).trans_lt hscript,
    fun output houtput ↦ (houtputs output houtput).trans_lt hscript⟩

/-- A transaction that stands twice in the block has no inputs. -/
theorem inputs_eq_nil_of_duplicate (h : block.Checked) {tx : Transaction}
    (hduplicate : List.Duplicate tx block.transactions) : tx.inputs = [] := by
  have htwice := List.duplicate_iff_sublist.mp hduplicate
  cases hcoinbase : tx.isCoinbase with
  | true =>
      have hcount := (htwice.filter Transaction.isCoinbase).length_le
      have htwo : ([tx, tx].filter Transaction.isCoinbase).length = 2 := by
        rw [List.filter_cons_of_pos hcoinbase, List.filter_cons_of_pos hcoinbase]
        rfl
      have hone : (block.transactions.filter Transaction.isCoinbase).length = 1 := h.coinbaseCount
      omega
  | false =>
      have hnodup := (htwice.flatMap Transaction.spentOutPoints).nodup h.spent_nodup
      have hspent : tx.spentOutPoints = tx.inputs.map TxInput.outPoint := by
        rw [Transaction.spentOutPoints, hcoinbase]
        rfl
      rw [List.flatMap_cons, List.flatMap_singleton, hspent] at hnodup
      by_contra hne
      obtain ⟨input, hinput⟩ := List.exists_mem_of_ne_nil _ hne
      have hmem := @List.mem_map_of_mem _ _ _ _ TxInput.outPoint hinput
      exact (List.nodup_append.mp hnodup).2.2 _ hmem _ hmem rfl

/-- Where the first transaction id is a pair's hash, the coinbase has the pair's length. -/
theorem coinbase_of_confused (h : block.Checked) {block' : Block}
    (hfree : CollisionFree block block')
    (hconfused : MerkleTree.Confused hashPair (block.transactions.map Transaction.txid)
      (block'.transactions.map Transaction.txid)) :
    ∃ tx ∈ block.transactions, tx.isCoinbase = true ∧ tx.serializedSize = 64 := by
  obtain ⟨x, pair, hhead, hjoined, heq⟩ := hconfused
  have hfirst := h.firstIsCoinbase
  cases htxs : block.transactions with
  | nil =>
      rw [htxs] at hhead
      cases hhead
  | cons tx rest =>
      rw [htxs] at hhead
      obtain rfl := Option.some.inj hhead
      have hmem : tx ∈ block.transactions := by
        rw [htxs]
        exact List.mem_cons_self
      rw [Chain.firstIsCoinbase, htxs] at hfirst
      have hbytes : tx.serialize = pair.1.toList ++ pair.2.toList :=
        hfree (Or.inl (.inl ⟨tx, hmem, rfl⟩)) (Or.inr (.inr ⟨pair, hjoined, rfl⟩)) heq
      refine ⟨tx, List.mem_cons_self, hfirst, ?_⟩
      rw [← Transaction.length_serialize, hbytes, List.length_append, List.Vector.toList_length,
        List.Vector.toList_length]

end Block.Checked

/-! ## One header -/

section

variable [Crypto] {block block' : Block}

/-- Checked blocks with one header and as many transactions have the same ones. -/
theorem CollisionFree.transactions_eq (hfree : CollisionFree block block') (h : block.Checked)
    (h' : block'.Checked) (hheader : block.header = block'.header)
    (hlength : block.transactions.length = block'.transactions.length) :
    block.transactions = block'.transactions := by
  have hroot := Block.headerMerkleRootMatches_root h.root
  have hroot' := Block.headerMerkleRootMatches_root h'.root
  rw [← hheader] at hroot'
  have hids := hroot.unique hroot' (by rw [List.length_map, List.length_map, hlength]) hfree.apart
  have hsized : ∀ tx ∈ block.transactions ++ block'.transactions, tx.Sized := fun tx hmem ↦
    (List.mem_append.mp hmem).elim (fun hm ↦ h.sized hm) fun hm ↦ h'.sized hm
  exact MerkleTree.map_injective_on (fun tx htx tx' htx' ↦ hfree.txid_injective hsized
    (List.mem_append_left _ htx) (List.mem_append_right _ htx')) hids

/-- Checked blocks with one header have as many transactions, unless one repeats a transaction
without inputs or has a coinbase that could be a pair of hashes. -/
theorem CollisionFree.length_eq (hfree : CollisionFree block block') (h : block.Checked)
    (h' : block'.Checked) (hheader : block.header = block'.header)
    (hinputs : ∀ tx ∈ block.transactions ++ block'.transactions, tx.inputs ≠ [])
    (hcoinbase : ∀ tx ∈ block.transactions ++ block'.transactions, tx.isCoinbase = true →
      tx.serializedSize ≠ 64) :
    block.transactions.length = block'.transactions.length := by
  by_contra hlength
  have hroot := Block.headerMerkleRootMatches_root h.root
  have hroot' := Block.headerMerkleRootMatches_root h'.root
  rw [← hheader] at hroot'
  have hsized : ∀ tx ∈ block.transactions ++ block'.transactions, tx.Sized := fun tx hmem ↦
    (List.mem_append.mp hmem).elim (fun hm ↦ h.sized hm) fun hm ↦ h'.sized hm
  rcases hroot.duplicate_or_confused hroot' (by rwa [List.length_map, List.length_map]) hfree.apart
    with ⟨x, hx⟩ | ⟨x, hx⟩ | hconfused | hconfused
  · obtain ⟨tx, htx⟩ := MerkleTree.duplicate_of_map (fun tx htx tx' htx' ↦
      hfree.txid_injective hsized (List.mem_append_left _ htx) (List.mem_append_left _ htx')) hx
    exact hinputs tx (List.mem_append_left _ htx.mem) (h.inputs_eq_nil_of_duplicate htx)
  · obtain ⟨tx, htx⟩ := MerkleTree.duplicate_of_map (fun tx htx tx' htx' ↦
      hfree.txid_injective hsized (List.mem_append_right _ htx) (List.mem_append_right _ htx')) hx
    exact hinputs tx (List.mem_append_right _ htx.mem) (h'.inputs_eq_nil_of_duplicate htx)
  · obtain ⟨tx, htx, hfirst, hsize⟩ := h.coinbase_of_confused hfree hconfused
    exact hcoinbase tx (List.mem_append_left _ htx) hfirst hsize
  · obtain ⟨tx, htx, hfirst, hsize⟩ := h'.coinbase_of_confused hfree.symm hconfused
    exact hcoinbase tx (List.mem_append_right _ htx) hfirst hsize

/-- Two blocks with one header that the chain connects have the same transactions just if they
have as many, and so they do if all of these have inputs and no coinbase takes 64 bytes. -/
theorem header_commits_iff [Features] {chain : Chain} {order order' : OrphanOrder}
    {height height' : ℕ} {hash hash' : Hash256} (hheader : block.header = block'.header)
    (hconnected : (chain.connectBlock order block).1 = .ok (.connected height hash))
    (hconnected' : (chain.connectBlock order' block').1 = .ok (.connected height' hash'))
    (hfree : CollisionFree block block') :
    (block.transactions = block'.transactions ↔
      block.transactions.length = block'.transactions.length) ∧
      ((∀ tx ∈ block.transactions ++ block'.transactions, tx.inputs ≠ []) →
        (∀ tx ∈ block.transactions ++ block'.transactions, tx.isCoinbase = true →
          tx.serializedSize ≠ 64) →
        block.transactions = block'.transactions) := by
  obtain ⟨parent, work, hadm⟩ := Chain.connectBlock_connected hconnected
  obtain ⟨parent', work', hadm'⟩ := Chain.connectBlock_connected hconnected'
  refine ⟨⟨congrArg List.length, ?_⟩, fun hinputs hcoinbase ↦ ?_⟩
  · exact hfree.transactions_eq hadm.checked hadm'.checked hheader
  · exact hfree.transactions_eq hadm.checked hadm'.checked hheader
      (hfree.length_eq hadm.checked hadm'.checked hheader hinputs hcoinbase)

end

end Bitrst

/-! ## One header with two lists -/

namespace Bitrst.Sample

open Support

/-- For two ids one message is hashed. -/
theorem mem_combined_pair {left right : Hash256} {message : Bytes}
    (h : message ∈ Combined [left, right]) : message = left.toList ++ right.toList := by
  obtain ⟨pair, hjoined, rfl⟩ := h
  cases hjoined with
  | here _ hpair =>
      obtain rfl := List.mem_singleton.mp hpair
      exact rfl
  | above _ habove =>
      cases habove with
      | here hlong _ => exact absurd hlong (by simp)
      | above hlong _ => exact absurd hlong (by simp)

theorem coinIds_bound : (merkleRoot [coinId0, coinId1]).isSome ∧
    (merkleRoot [coinId1, coinId0]).isSome ∧
      (merkleRoot [coinId0, coinId1] = merkleRoot [coinId1, coinId0] ↔
        [coinId0, coinId1] = [coinId1, coinId0]) := by
  have hnodup : ([coinId0.toList ++ coinId1.toList, coinId1.toList ++ coinId0.toList].map
      sha256d).Nodup := by
    decide +kernel
  have hmem : ∀ message ∈ Combined [coinId0, coinId1] ∪ Combined [coinId1, coinId0],
      message ∈ [coinId0.toList ++ coinId1.toList, coinId1.toList ++ coinId0.toList] := by
    rintro message (h | h)
    · rw [mem_combined_pair h]
      exact List.mem_cons_self
    · rw [mem_combined_pair h]
      exact List.mem_cons_of_mem _ List.mem_cons_self
  refine merkleRoot_binds rfl (by decide) (by decide) ?_
  rintro message ⟨-, h⟩ message' ⟨-, h'⟩ heq
  exact List.inj_on_of_nodup_map hnodup (hmem message h) (hmem message' h') heq

/-- Neither spends nor pays. -/
def idle : Transaction := ⟨1, [], [], 0⟩

def idleRoot : Hash256 := beVector 32
  0xc4ebc053bbc08f49c4f03b51699100a394acf50f88b954072a800955fa241231

def oddIdle : Block := ⟨header genesisHash idleRoot 1001 0, [coin 1, idle, idle]⟩

/-- The same header over the list that the Merkle tree of `oddIdle` fills up. -/
def evenIdle : Block := ⟨oddIdle.header, [coin 1, idle, idle, idle]⟩

theorem idle_open : Opens oddIdle ∧ Opens evenIdle := by decide +kernel

theorem Opens.connectBlock_eq {block : Block} (h : Opens block) :
    (start.connectBlock order block).1 = .ok (.connected 1 block.hash) := by
  have hindexed := (Chain.ReachableWith.coherent
    (start_reachable : Chain.Reachable genesis start)).indexed
  rw [Chain.connectBlock_eq_place hindexed rfl order h.admitted, h.place_eq]

/-- What is hashed for either of the two lists. -/
def idleMessages : List Bytes :=
  [(coin 1).serialize, idle.serialize, (coin 1).txid.toList ++ idle.txid.toList,
    idle.txid.toList ++ idle.txid.toList,
    (hashPair (coin 1).txid idle.txid).toList ++ (hashPair idle.txid idle.txid).toList]

theorem joined_idleMessages {nodes : List Hash256} {pair : Hash256 × Hash256}
    (hpairs : MerkleTree.pairs nodes =
      [((coin 1).txid, idle.txid), (idle.txid, idle.txid)])
    (h : MerkleTree.Joined hashPair nodes pair) :
    pair.1.toList ++ pair.2.toList ∈ idleMessages := by
  have hlevel : MerkleTree.level hashPair nodes =
      [hashPair (coin 1).txid idle.txid, hashPair idle.txid idle.txid] := by
    rw [MerkleTree.level, hpairs]
    rfl
  cases h with
  | here _ hpair =>
      rw [hpairs] at hpair
      simp only [List.mem_cons, List.not_mem_nil, or_false] at hpair
      rcases hpair with rfl | rfl <;> simp [idleMessages]
  | above _ habove =>
      rw [hlevel] at habove
      cases habove with
      | here _ hpair =>
          rw [MerkleTree.pairs, MerkleTree.pairs, List.mem_singleton] at hpair
          subst hpair
          simp [idleMessages]
      | above _ htop =>
          cases htop with
          | here hlong _ => exact absurd hlong (by simp)
          | above hlong _ => exact absurd hlong (by simp)

theorem idle_collisionFree : CollisionFree oddIdle evenIdle := by
  have hnodup : (idleMessages.map sha256d).Nodup := by decide +kernel
  have hmem : ∀ message, Hashed oddIdle.transactions message ∨
      Hashed evenIdle.transactions message → message ∈ idleMessages := by
    rintro message ((⟨tx, htx, rfl⟩ | ⟨pair, hpair, rfl⟩) | (⟨tx, htx, rfl⟩ | ⟨pair, hpair, rfl⟩))
    · simp only [oddIdle, List.mem_cons, List.not_mem_nil, or_false, or_self] at htx
      rcases htx with rfl | rfl <;> simp [idleMessages]
    · exact joined_idleMessages rfl hpair
    · simp only [evenIdle, List.mem_cons, List.not_mem_nil, or_false, or_self] at htx
      rcases htx with rfl | rfl <;> simp [idleMessages]
    · exact joined_idleMessages rfl hpair
  exact fun message h message' h' heq ↦
    List.inj_on_of_nodup_map hnodup (hmem message h) (hmem message' h') heq

theorem header_of_two_lists : Chain.Reachable genesis start ∧ CollisionFree oddIdle evenIdle ∧
    oddIdle.header = evenIdle.header ∧
      (start.connectBlock order oddIdle).1 = .ok (.connected 1 oddIdle.hash) ∧
        (start.connectBlock order evenIdle).1 = .ok (.connected 1 evenIdle.hash) ∧
          oddIdle.transactions ≠ evenIdle.transactions :=
  ⟨start_reachable, idle_collisionFree, rfl, idle_open.1.connectBlock_eq,
    idle_open.2.connectBlock_eq, by decide⟩

theorem idle_commits :
    (oddIdle.transactions = evenIdle.transactions ↔
      oddIdle.transactions.length = evenIdle.transactions.length) ∧
      ((∀ tx ∈ oddIdle.transactions ++ evenIdle.transactions, tx.inputs ≠ []) →
        (∀ tx ∈ oddIdle.transactions ++ evenIdle.transactions, tx.isCoinbase = true →
          tx.serializedSize ≠ 64) →
        oddIdle.transactions = evenIdle.transactions) :=
  header_commits_iff rfl idle_open.1.connectBlock_eq idle_open.2.connectBlock_eq
    idle_collisionFree

end Bitrst.Sample
