import Bitrst.Branch
import Bitrst.ForkWalk
import Bitrst.LinearRun
import Bitrst.TakenOutputs
import Bitrst.UtxoReplay

/-!
# Transactions judged on another branch

A block is checked against the outputs of the active chain before the fork is
switched to.  Its own branch has the outputs of `replayBlocks (branch …)`.
The errors that come from transactions are separated from the others here, and
traced to the checks that raise them, each with the set of outputs it reads.
Whether a block is judged as on its branch then depends on the outputs that it
takes being the same in both sets.
-/

namespace Bitrst

open Support

/-- The errors that the transactions of a block can raise. -/
def ChainError.ofTransactions : ChainError → Bool
  | .utxo _ => true
  | .sighash _ => true
  | .invalidScript => true
  | .invalidProofOfWork => false
  | .merkleRootMismatch => false
  | .invalidCoinbaseCount _ => false
  | .invalidTimestamp _ _ _ => false
  | .unexpectedBits _ _ _ => false
  | .difficulty _ => false
  | .blockAlreadyKnown => false
  | .blockTooLarge => false
  | .tooManyTransactions => false
  | .scriptTooLarge => false
  | .missingAncestor => false
  | .noActiveTip => false
  | .invalidNetworkTime => false

variable [Crypto] [Features]

namespace Chain

variable {genesis : Block} {chain : Chain}

/-! ## Where errors come from -/

omit [Crypto] [Features] in
theorem validateBlockLimits_error {block : Block} {e : ChainError}
    (h : validateBlockLimits block = .error e) : e.ofTransactions = false := by
  unfold validateBlockLimits at h
  split at h
  · cases h
    rfl
  · split at h
    · cases h
      rfl
    · split at h
      · cases h
        rfl
      · cases h

omit [Crypto] [Features] in
theorem blockWork_error {bits : UInt32} {e : ChainError} (h : blockWork bits = .error e) :
    e.ofTransactions = false := by
  unfold blockWork at h
  split at h
  · cases h
    rfl
  · split at h
    · cases h
      rfl
    · cases h

omit [Crypto] in
theorem expectedBits_error {height : ℕ} {bits : UInt32} {e : ChainError}
    (h : chain.expectedBits height bits = .error (.error e)) : e.ofTransactions = false := by
  unfold expectedBits at h
  split at h
  · cases h
  · split at h
    · split at h
      · cases h
        rfl
      · cases h
    · simp only at h
      split at h
      · cases h
      · split at h
        · split at h
          · cases h
            rfl
          · cases h
        · cases h

omit [Crypto] in
theorem HeaderFault.not_of_transactions {block : Block} {height : ℕ} {e : ChainError}
    (h : HeaderFault chain block height (.error e)) : e.ofTransactions = false := by
  cases h with
  | demanded hdemanded => exact expectedBits_error hdemanded
  | _ => rfl

omit [Features] in
theorem validateBlockTransaction_error {tx : Transaction} {view : UtxoSet}
    {spent : List OutPoint} {e : ChainError}
    (h : validateBlockTransaction tx view spent = .error e) : e.ofTransactions = true := by
  have hspend : ∀ (inputs : List TxInput) (spent : List OutPoint) {e : ChainError},
      spendOnce inputs spent = .error e → e.ofTransactions = true := by
    intro inputs
    induction inputs with
    | nil =>
        intro spent e h
        cases h
    | cons input rest ih =>
        intro spent e h
        unfold spendOnce at h
        split at h
        · cases h
          rfl
        · exact ih _ h
  unfold validateBlockTransaction at h
  split at h
  · rename_i hspent
    split at hspent
    · cases hspent
    · cases h
      exact hspend _ _ hspent
  · split at h
    · cases h
      rfl
    · split at h
      · cases h
      · split at h
        · cases h
          rfl
        · split at h
          · rename_i failure _
            cases h
            cases failure <;> rfl
          · cases h

omit [Features] in
theorem validateBlockTransactionsForUtxo_error {block : Block} {utxo : UtxoSet}
    {e : ChainError} (h : validateBlockTransactionsForUtxo block utxo = .error e) :
    e.ofTransactions = true := by
  have hloop : ∀ (txs : List Transaction) (view : UtxoSet) (spent : List OutPoint),
      validateBlockTransactionsLoop txs view spent = .error e → e.ofTransactions = true := by
    intro txs
    induction txs with
    | nil =>
        intro view spent h
        cases h
    | cons tx rest ih =>
        intro view spent h
        unfold validateBlockTransactionsLoop at h
        split at h
        · rename_i htx
          cases h
          exact validateBlockTransaction_error htx
        · exact ih _ _ h
  exact hloop _ _ _ h

/-- An error of block validation comes from the transactions exactly when the
header passes and they fail. -/
theorem validateBlockForParent_transactions_iff {block : Block} {parent : Option Block}
    {parentHash : Option Hash256} {height : ℕ} :
    (∃ e, chain.validateBlockForParent block parent parentHash height = .error (.error e) ∧
      e.ofTransactions = true) ↔
      chain.validateBlockHeaderForParent block parent parentHash height = .ok () ∧
        validateBlockTransactionsForUtxo block chain.utxo ≠ .ok () := by
  unfold validateBlockForParent
  cases hheader : chain.validateBlockHeaderForParent block parent parentHash height with
  | error stop =>
      constructor
      · rintro ⟨e, herror, htransactions⟩
        rw [Except.error.inj herror] at hheader
        rw [(HeaderFault.of_error hheader).not_of_transactions] at htransactions
        cases htransactions
      · rintro ⟨hok, -⟩
        cases hok
  | ok _ =>
      cases htxs : validateBlockTransactionsForUtxo block chain.utxo with
      | error e =>
          simp only [ne_eq, reduceCtorEq, not_false_eq_true, and_true, iff_true]
          exact ⟨e, rfl, validateBlockTransactionsForUtxo_error htxs⟩
      | ok _ => simp

/-! ## The transaction checks of one activation -/

/-- The block passes every check before that of its transactions. -/
structure HeaderAdmitted (chain : Chain) (block : Block) (parent : BlockMeta) : Prop where
  limits : validateBlockLimits block = .ok ()
  unknown : chain.known.lookup block.hash = none
  not_orphan : chain.orphans.lookup block.hash = none
  parent_known : chain.known.lookup block.header.prevBlockhash = some parent
  header : chain.validateBlockHeaderForParent block (some parent.block)
    (some block.header.prevBlockhash) (parent.height + 1) = .ok ()

/-- While `block` is connected, the transactions of a block are checked against a set of outputs:
its own against the active ones and, if the chain reorganises, those of every block of the fork
path against the outputs when its turn comes. -/
inductive Judges (chain : Chain) (block : Block) : Block → UtxoSet → Prop
  | own {parent : BlockMeta} (admitted : HeaderAdmitted chain block parent) :
      Judges chain block block chain.utxo
  | path {parent : BlockMeta} {work : ChainWork} {path keep post front back : List Block}
      {fork b : Block} {reached : Chain} (admitted : Admitted chain block parent work)
      (tip : block.header.prevBlockhash ≠ chain.tipHash)
      (heavier : ¬ (parent.work.add work).le chain.totalWork)
      (forks : ForkPoint chain block path keep fork post) (parts : path = front ++ b :: back)
      (connects : ConnectsPath front (rewind post chain) reached)
      (header : reached.validateBlockHeaderForParent b reached.blocks.getLast?
        (some b.header.prevBlockhash) (reached.height + 1) = .ok ()) :
      Judges chain block b reached.utxo

/-- The error of a fork path is that of the first block that does not pass. -/
theorem connectForkPath_error_iff {path : List Block} {stop : Stop} :
    (connectForkPath path chain).1 = .error stop ↔
      ∃ front b back reached, path = front ++ b :: back ∧ ConnectsPath front chain reached ∧
        (reached.validateBlockForParent b reached.blocks.getLast?
            (some b.header.prevBlockhash) (reached.height + 1) = .error stop ∨
          reached.validateBlockForParent b reached.blocks.getLast?
              (some b.header.prevBlockhash) (reached.height + 1) = .ok () ∧
            ∃ e, blockWork b.header.bits = .error e ∧ stop = .error e) := by
  induction path generalizing chain with
  | nil => simp [connectForkPath]
  | cons block rest ih =>
      constructor
      · intro h
        simp only [connectForkPath] at h
        split at h
        · rename_i hinvalid
          cases h
          exact ⟨[], block, rest, chain, rfl, .nil _, Or.inl hinvalid⟩
        · rename_i hvalid
          split at h
          · rename_i hwork
            cases h
            exact ⟨[], block, rest, chain, rfl, .nil _, Or.inr ⟨hvalid, _, hwork, rfl⟩⟩
          · rename_i work hwork
            obtain ⟨front, b, back, reached, rfl, hconnects, hfails⟩ := ih.mp h
            exact ⟨block :: front, b, back, reached, rfl, .cons ⟨hvalid, hwork⟩ hconnects, hfails⟩
      · rintro ⟨front, b, back, reached, hpath, hconnects, hfails⟩
        cases hconnects with
        | nil =>
            obtain ⟨rfl, -⟩ := List.cons.inj hpath
            simp only [connectForkPath]
            rcases hfails with hinvalid | ⟨hvalid, e, hwork, rfl⟩
            · simp only [hinvalid]
            · simp only [hvalid, hwork]
        | cons valid tail =>
            obtain ⟨rfl, hrest⟩ := List.cons.inj hpath
            simp only [connectForkPath, valid.1, valid.2]
            exact ih.mpr ⟨_, b, back, reached, hrest, tail, hfails⟩

/-- The errors of admission that come from transactions come from those of the block. -/
theorem admission_error_transactions {block : Block} {e : ChainError}
    (h : chain.admission block = .error (.error e)) (he : e.ofTransactions = true) :
    ∃ parent, HeaderAdmitted chain block parent ∧
      validateBlockTransactionsForUtxo block chain.utxo ≠ .ok () := by
  unfold admission at h
  split at h
  · rename_i hlimits
    cases h
    rw [validateBlockLimits_error hlimits] at he
    cases he
  · rename_i hlimits
    split at h
    · cases h
      cases he
    · rename_i hfresh
      simp only [Option.not_isSome_iff_eq_none, not_or] at hfresh
      split at h
      · cases h
      · rename_i parent hparent
        split at h
        · rename_i stop hinvalid
          rw [Except.error.inj h] at hinvalid
          obtain ⟨hheader, htxs⟩ := validateBlockForParent_transactions_iff.mp ⟨e, hinvalid, he⟩
          exact ⟨parent, ⟨hlimits, hfresh.1, hfresh.2, hparent, hheader⟩, htxs⟩
        · split at h
          · rename_i hwork
            cases h
            rw [blockWork_error hwork] at he
            cases he
          · cases h

/-- The transaction checks pass exactly when the block is not refused with one of their errors. -/
theorem judges_ok_iff {block : Block} :
    (∀ b view, Judges chain block b view → validateBlockTransactionsForUtxo b view = .ok ()) ↔
      ∀ e, Refused chain block e → e.ofTransactions = false := by
  constructor
  · intro haccepted e hrefused
    by_contra he
    rw [Bool.not_eq_false] at he
    rcases hrefused with hadm | ⟨parent, work, path, keep, fork, post, hadmitted, htip, hheavier,
      hforks, hfails⟩
    · obtain ⟨parent, hheader, htxs⟩ := admission_error_transactions hadm he
      exact htxs (haccepted _ _ (.own hheader))
    · obtain ⟨front, b, back, reached, hpath, hconnects, hinvalid | ⟨-, e', hwork, heq⟩⟩ :=
        connectForkPath_error_iff.mp hfails
      · obtain ⟨hheader, htxs⟩ := validateBlockForParent_transactions_iff.mp ⟨e, hinvalid, he⟩
        apply htxs
        apply haccepted
        exact .path hadmitted htip hheavier hforks hpath hconnects hheader
      · obtain rfl := Stop.error.inj heq
        rw [blockWork_error hwork] at he
        cases he
  · intro hrefused b view hjudges
    by_contra htxs
    cases hjudges with
    | own hheader =>
        obtain ⟨e, hinvalid, he⟩ :=
          validateBlockForParent_transactions_iff.mpr ⟨hheader.header, htxs⟩
        have hadm : chain.admission block = .error (.error e) := by
          simp [admission, hheader.limits, hheader.unknown, hheader.not_orphan,
            hheader.parent_known, hinvalid]
        rw [hrefused e (Or.inl hadm)] at he
        cases he
    | path hadmitted htip hheavier hforks hpath hconnects hheader =>
        obtain ⟨e, hinvalid, he⟩ := validateBlockForParent_transactions_iff.mpr ⟨hheader, htxs⟩
        have hfails := connectForkPath_error_iff.mpr
          ⟨_, _, _, _, hpath, hconnects, Or.inl hinvalid⟩
        rw [hrefused e (Or.inr ⟨_, _, _, _, _, _, hadmitted, htip, hheavier, hforks, hfails⟩)]
          at he
        cases he

/-! ## The blocks that a call can meet -/

/-- Every block that the chain has indexed or waiting is in the set. -/
structure BlocksIn (blocks : Set Block) (chain : Chain) : Prop where
  known : ∀ hash entry, chain.known.lookup hash = some entry → entry.block ∈ blocks
  waiting : ∀ hash entry, chain.orphans.lookup hash = some entry → entry.block ∈ blocks

variable {blocks : Set Block}

omit [Crypto] [Features] in
theorem BlocksIn.fewer {chain' : Chain} (h : BlocksIn blocks chain)
    (hfewer : FewerOrphans chain chain') : BlocksIn blocks chain' := by
  obtain ⟨orphans, rfl, hpool⟩ := hfewer
  exact ⟨h.known, fun hash entry hentry ↦ h.waiting hash entry (hpool hash entry hentry)⟩

theorem BlocksIn.connectAlone (h : BlocksIn blocks chain) (hindexed : Indexed genesis chain)
    (order : OrphanOrder) {block : Block} (hblock : block ∈ blocks) :
    BlocksIn blocks (connectAlone order block chain).2 := by
  cases hadm : chain.admission block with
  | error stop =>
      rw [connectAlone_eq, hadm]
      exact h
  | ok found =>
      cases found with
      | none =>
          obtain ⟨orphans, seq, journal, heq, hpool⟩ := insertOrphan_spec order chain block
          rw [connectAlone_eq, hadm]
          simp only [heq]
          refine ⟨h.known, fun hash entry hentry ↦ ?_⟩
          rcases hpool hash entry hentry with ⟨-, rfl⟩ | hold
          · exact hblock
          · exact h.waiting hash entry hold
      | some pair =>
          have hadmitted := admission_some_iff.mp hadm
          have horphans := place_orphans hindexed hadmitted
          have hplace := place_placement hindexed hadmitted
          rw [connectAlone_eq_place order hadmitted]
          refine ⟨fun hash entry hentry ↦ ?_, fun hash entry hentry ↦ ?_⟩
          · rcases hplace.known_cases hentry with heq | ⟨old, hold, heq⟩
            · rwa [heq]
            · rw [← heq]
              exact h.known hash old hold
          · rw [horphans] at hentry
            exact h.waiting hash entry hentry

/-- What the promotion loop activates is in the set. -/
theorem promotionActivations_blocksIn (order : OrphanOrder) (fuel : ℕ) (queue : List Block)
    (hc : Coherent genesis chain) (h : BlocksIn blocks chain) (hqueue : ∀ b ∈ queue, b ∈ blocks) :
    ∀ a ∈ promotionActivations order fuel queue chain, BlocksIn blocks a.1 ∧ a.2 ∈ blocks := by
  induction fuel generalizing queue chain with
  | zero => simp [promotionActivations]
  | succ fuel ih =>
      cases queue with
      | nil => simp [promotionActivations]
      | cons next queue =>
          have hnext := hqueue next List.mem_cons_self
          have hplaced := h.connectAlone hc.indexed order hnext
          have hcoherent := connectAlone_coherent hc order next
          unfold promotionActivations
          intro a ha
          rcases List.mem_cons.mp ha with rfl | ha
          · exact ⟨h, hnext⟩
          · cases hconnect : Chain.connectAlone order next chain with
            | mk outcome placed =>
              rw [hconnect] at ha hplaced hcoherent
              cases outcome with
              | error stop => cases ha
              | ok result =>
                  have hfewer := enqueueReadyOrphans_fewer order placed queue
                  refine ih _ (hfewer.coherent hcoherent) (hplaced.fewer hfewer) ?_ a ha
                  intro b hb
                  rcases mem_foldl_dequeueOrphan hb with hold | ⟨hash, -, entry, hentry, rfl⟩
                  · exact hqueue b (List.mem_cons_of_mem _ hold)
                  · exact hplaced.waiting hash entry hentry

theorem activations_blocksIn (order : OrphanOrder) {block : Block} (hc : Coherent genesis chain)
    (h : BlocksIn blocks chain) (hblock : block ∈ blocks) :
    ∀ a ∈ activations order block chain, BlocksIn blocks a.1 ∧ a.2 ∈ blocks := by
  have hplaced := h.connectAlone hc.indexed order hblock
  have hcoherent := connectAlone_coherent hc order block
  unfold activations
  intro a ha
  rcases List.mem_cons.mp ha with rfl | ha
  · exact ⟨h, hblock⟩
  · cases hconnect : Chain.connectAlone order block chain with
    | mk outcome placed =>
      rw [hconnect] at ha hplaced hcoherent
      cases outcome with
      | error stop => cases ha
      | ok result =>
          simp only at ha
          split at ha
          · have hfewer := enqueueReadyOrphans_fewer order placed []
            refine promotionActivations_blocksIn order _ _ (hfewer.coherent hcoherent)
              (hplaced.fewer hfewer) ?_ a ha
            intro b hb
            rcases mem_foldl_dequeueOrphan hb with hold | ⟨hash, -, entry, hentry, rfl⟩
            · cases hold
            · exact hplaced.waiting hash entry hentry
          · cases ha

/-! ## Judging on the own branch -/

/-- The transactions of the block are valid on the replay of its ancestors. -/
def ValidOnBranch (chain : Chain) (block : Block) : Prop :=
  validateBlockTransactionsForUtxo block
    (replayBlocks (chain.branch block.header.prevBlockhash)) = .ok ()

/-- The transactions of the blocks. -/
def transactionsOf (blocks : Set Block) : Set Transaction :=
  {tx | ∃ b ∈ blocks, tx ∈ b.transactions}

/-- The blocks that the chain has, indexed or waiting, and the one delivered to it. -/
def inPlay (chain : Chain) (block : Block) : Set Block :=
  {b | b = block ∨ (∃ hash entry, chain.known.lookup hash = some entry ∧ entry.block = b) ∨
    ∃ hash entry, chain.orphans.lookup hash = some entry ∧ entry.block = b}

/-- The delivered block is judged only by sets that have the outputs it takes as its own branch
has them; every other block that is judged finds what it takes, and has no other fault. -/
structure ViewsAgree (order : OrphanOrder) (chain : Chain) (block : Block) : Prop where
  delivered : ∀ a ∈ activations order block chain, ∀ view, Judges a.1 a.2 block view →
    ∀ outpoint ∈ block.takenOutPoints, view.lookup outpoint =
      (replayBlocks (chain.branch block.header.prevBlockhash)).lookup outpoint
  others : ∀ a ∈ activations order block chain, ∀ b view, Judges a.1 a.2 b view → b ≠ block →
    b.HeldBy view ∧ b.SoundAmong (transactionsOf (inPlay chain block))

/-- Errors of transactions mean a block that is invalid on its own branch. -/
def JudgedOnBranch (order : OrphanOrder) (chain : Chain) (block : Block) : Prop :=
  ∀ e, (connectBlock order block chain).1 = .error (.error e) → e.ofTransactions = true →
    ¬ ValidOnBranch chain block

omit [Crypto] [Features] in
theorem blocksIn_inPlay (chain : Chain) (block : Block) : BlocksIn (inPlay chain block) chain where
  known hash entry hentry := Or.inr (Or.inl ⟨hash, entry, hentry, rfl⟩)
  waiting hash entry hentry := Or.inr (Or.inr ⟨hash, entry, hentry, rfl⟩)

omit [Crypto] [Features] in
theorem mem_branchLoop {n : ℕ} {hash : Hash256} {b : Block} (hb : b ∈ chain.branchLoop n hash) :
    ∃ hash entry, chain.known.lookup hash = some entry ∧ entry.block = b := by
  induction n generalizing hash with
  | zero =>
      unfold branchLoop at hb
      split at hb
      · cases hb
      · rename_i entry hentry
        exact ⟨hash, entry, hentry, (List.mem_singleton.mp hb).symm⟩
  | succ n ih =>
      unfold branchLoop at hb
      split at hb
      · cases hb
      · rename_i entry hentry
        rcases List.mem_append.mp hb with hbelow | hlast
        · exact ih hbelow
        · exact ⟨hash, entry, hentry, (List.mem_singleton.mp hlast).symm⟩

omit [Features] in
/-- A replay leaves outputs of the blocks replayed. -/
theorem replayBlocks_createdBy {replayed : List Block} (hblocks : ∀ b ∈ replayed, b ∈ blocks) :
    (replayBlocks replayed).CreatedBy (transactionsOf blocks) := by
  intro outpoint entry hentry
  rcases UtxoSet.supplies_of_lookup hentry with hnone | ⟨tx, htx, houtput⟩
  · cases hnone
  · obtain ⟨b, hb, htx⟩ := List.mem_flatMap.mp htx
    exact ⟨tx, ⟨b, hblocks b hb, htx⟩, houtput⟩

omit [Features] in
theorem Backed.createdBy (hbacked : Backed chain) (hblocks : ∀ b ∈ chain.blocks, b ∈ blocks) :
    chain.utxo.CreatedBy (transactionsOf blocks) := by
  intro outpoint entry hentry
  obtain ⟨b, hb, tx, htx, hwritten⟩ := hbacked.created hentry
  exact ⟨tx, ⟨b, hblocks b hb, htx⟩, hwritten⟩

omit [Crypto] [Features] in
theorem BlocksIn.active (h : BlocksIn blocks chain) [Crypto] (hindexed : Indexed genesis chain) :
    ∀ b ∈ chain.blocks, b ∈ blocks := by
  intro b hb
  obtain ⟨i, hi⟩ := List.mem_iff_getElem?.mp hb
  obtain ⟨entry, hentry, rfl, -⟩ := hindexed.active_known i b hi
  exact h.known _ entry hentry

/-- A fork path that is connected part of the way stands on the outputs of its blocks. -/
theorem ForkPoint.backed (h : Indexed genesis chain) {block : Block}
    {path keep post front back : List Block} {fork : Block} {reached : Chain}
    (hf : ForkPoint chain block path keep fork post)
    (hunknown : chain.known.lookup block.hash = none) (hparts : path = front ++ back)
    (hconnects : ConnectsPath front (rewind post chain) reached) (hbacked : Backed chain) :
    Backed reached := by
  obtain ⟨⟨frames, state⟩, hfollows, hgrounded⟩ := hbacked
  obtain ⟨keepFrames, postFrames, hframes, -, rfl⟩ := hfollows.split hf.split'
  obtain rfl : frames = keepFrames ++ postFrames := hframes
  have hready := hf.pathReady h hunknown
  rw [hparts] at hready
  have hreached := (hconnects.follows (hf.rewind_indexed h) hready.front hfollows.rewind).1
  have hrun := (UndoStack.Run.unwind Block.patches keepFrames postFrames state).append
    (UndoStack.Run.pushAll Block.patches _ front)
  exact ⟨_, hreached, hgrounded.run hrun⟩

/-- Every set of outputs that a block is judged by was created by the blocks at hand. -/
theorem Judges.createdBy {block b : Block} {view : UtxoSet} (hjudges : Judges chain block b view)
    (h : Indexed genesis chain) (hbacked : Backed chain) (hin : BlocksIn blocks chain)
    (hblock : block ∈ blocks) : view.CreatedBy (transactionsOf blocks) := by
  cases hjudges with
  | own _ => exact hbacked.createdBy (hin.active h)
  | path hadmitted _ _ hforks hpath hconnects _ =>
      apply (hforks.backed h hadmitted.unknown hpath hconnects hbacked).createdBy
      intro stored hstored
      rw [hconnects.blocks_eq, rewind_blocks hforks.split'] at hstored
      rcases List.mem_append.mp hstored with hkept | hfront
      · apply hin.active h
        rw [hforks.split']
        exact List.mem_append_left _ hkept
      · have hmem := hpath ▸ List.mem_append_left _ hfront
        rcases hforks.mem_path_cases hmem with rfl | ⟨-, entry, hentry, rfl⟩
        · exact hblock
        · exact hin.known _ entry hentry

theorem activations_backed (h : Reachable genesis chain) (order : OrphanOrder) (block : Block) :
    ∀ a ∈ activations order block chain, Backed a.1 := by
  intro a ha
  refine (activations_invariant order block chain
    (fun c ↦ Coherent genesis c ∧ Backed c) ?_ ?_ ⟨ReachableWith.coherent h, h.backed⟩ a ha).2
  · rintro c _ ⟨hc, hbacked⟩ hfewer
    refine ⟨hfewer.coherent hc, ?_⟩
    obtain ⟨orphans, rfl, -⟩ := hfewer
    exact hbacked.congr rfl rfl rfl
  · exact fun c b hc _ ↦
      ⟨connectAlone_coherent hc.1 order b, connectAlone_backed hc.1.indexed hc.2 order b⟩

/-- A call raises an error of transactions exactly when a block that it judges fails. -/
theorem connectBlock_transactions_iff (h : Reachable genesis chain) (order : OrphanOrder)
    (block : Block) :
    (∀ e, (connectBlock order block chain).1 = .error (.error e) → e.ofTransactions = false) ↔
      ∀ a ∈ activations order block chain, ∀ b view, Judges a.1 a.2 b view →
        validateBlockTransactionsForUtxo b view = .ok () := by
  have hc := activations_coherent (ReachableWith.coherent h) order block
  constructor
  · intro hnone a ha
    rw [judges_ok_iff]
    intro e hrefused
    apply hnone e
    rw [connectBlock_error_iff]
    exact ⟨a, ha, (connectAlone_error_iff (hc a ha).indexed order).mpr hrefused⟩
  · intro hpass e herror
    obtain ⟨a, ha, hfailed⟩ := (connectBlock_error_iff order block chain e).mp herror
    exact judges_ok_iff.mp (hpass a ha) e
      ((connectAlone_error_iff (hc a ha).indexed order).mp hfailed)

omit [Features] in
/-- An output that no block above the fork spends or creates, on either side of it, is on the
branch what it is on the active chain. -/
theorem Replayed.lookup_branch (h : Replayed chain) {hash : Hash256}
    {common above beside : List Block} (habove : chain.blocks = common ++ above)
    (hbeside : chain.branch hash = common ++ beside) {outpoint : OutPoint}
    (hactive : ¬ Touched (above.flatMap Block.patches) outpoint)
    (hbranch : ¬ Touched (beside.flatMap Block.patches) outpoint) :
    chain.utxo.lookup outpoint = (replayBlocks (chain.branch hash)).lookup outpoint := by
  have hreplay : ∀ rest : List Block, ¬ Touched (rest.flatMap Block.patches) outpoint →
      (replayBlocks (common ++ rest)).lookup outpoint =
        (replayBlocks common).lookup outpoint := by
    intro rest hrest
    rw [replayBlocks, List.flatMap_append, UtxoSet.applyTransactions_append,
      UtxoSet.applyTransactions_eq_applyAll, List.map_flatMap]
    exact lookup_applyAll_of_not_touched _ _ hrest
  rw [h.utxo_eq, habove, hbeside, hreplay above hactive, hreplay beside hbranch]

/-- Without orphans only the delivered block is activated. -/
theorem activations_of_empty (h : Indexed genesis chain) (hnone : chain.orphans = ∅)
    (order : OrphanOrder) (block : Block) : activations order block chain = [(chain, block)] := by
  cases hadm : chain.admission block with
  | error stop => rw [activations, connectAlone_eq, hadm]
  | ok found =>
      cases found with
      | none =>
          rw [activations, connectAlone_eq, hadm]
          rfl
      | some pair => exact activations_eq_singleton h hnone order (admission_some_iff.mp hadm)

/-- On top of the active chain, with no orphan waiting, a block is judged on its branch. -/
theorem Replayed.judgedOnBranch_tip (hreplayed : Replayed chain) (h : Reachable genesis chain)
    (hnone : chain.orphans = ∅) (order : OrphanOrder) {block : Block}
    (htip : block.header.prevBlockhash = chain.tipHash) : JudgedOnBranch order chain block := by
  have hindexed := (ReachableWith.coherent h).indexed
  have hown : ∀ b view, Judges chain block b view → b = block ∧ view = chain.utxo := by
    intro b view hjudges
    cases hjudges with
    | own _ => exact ⟨rfl, rfl⟩
    | path _ hnot _ _ _ _ _ => exact (hnot htip).elim
  have hpass := (connectBlock_transactions_iff h order block).mpr
  rw [activations_of_empty hindexed hnone order block] at hpass
  intro e herror he hvalid
  rw [ValidOnBranch, htip, hindexed.branch_tip, ← hreplayed.utxo_eq] at hvalid
  rw [hpass ?_ e herror] at he
  · cases he
  · intro a ha b view hjudges
    rw [List.mem_singleton.mp ha] at hjudges
    obtain ⟨rfl, rfl⟩ := hown b view hjudges
    exact hvalid

end Chain

end Bitrst

namespace Bitrst.Sample

theorem spendsGenesis_challenges : Challenges (grown first) first spendsGenesis := by
  decide +kernel

theorem forked_judges {b : Block} {view : UtxoSet}
    (h : Chain.Judges (forked (grown first)) spendsGenesis b view) :
    b = spendsGenesis ∧ view = (forked (grown first)).utxo ∨
      b = side ∧ view = (rewound (grown first) first).utxo ∨
        b = spendsGenesis ∧ view = (branched (grown first) first).utxo := by
  cases h with
  | own _ => exact Or.inl ⟨rfl, rfl⟩
  | @path _ _ _ keep post front back fork _ reached _ _ _ hforks hparts hconnects _ =>
      obtain ⟨rfl, hfork⟩ := Prod.mk.inj
        (Except.ok.inj (hforks.collected.symm.trans spendsGenesis_challenges.collected))
      have hpost : post = [first] := by
        have hsplit : [genesis, first] = keep ++ fork :: post := hforks.split
        rcases List.cons_eq_append_iff.mp hsplit with ⟨-, hrest⟩ | ⟨keep', -, hrest⟩
        · exact (List.cons.inj hrest).2
        · rcases List.cons_eq_append_iff.mp hrest with ⟨-, hlast⟩ | ⟨keep'', -, hnil⟩
          · obtain ⟨rfl, -⟩ := List.cons.inj hlast
            exact absurd hfork (by decide +kernel)
          · simp at hnil
      subst hpost
      rcases List.cons_eq_append_iff.mp hparts with ⟨rfl, hrest⟩ | ⟨front', rfl, hrest⟩
      · obtain ⟨rfl, -⟩ := List.cons.inj hrest
        cases hconnects
        exact Or.inr (Or.inl ⟨rfl, rfl⟩)
      · rcases List.cons_eq_append_iff.mp hrest with ⟨rfl, hlast⟩ | ⟨front'', -, hnil⟩
        · obtain ⟨rfl, -⟩ := List.cons.inj hlast
          cases hconnects with
          | cons _ tail =>
              cases tail
              exact Or.inr (Or.inr ⟨rfl, rfl⟩)
        · simp at hnil

/-- The coinbase that the block takes is the same in the active set, at the fork and on the
branch. -/
theorem forked_views_agree : Chain.ViewsAgree order (forked (grown first)) spendsGenesis := by
  have hindexed := (Chain.ReachableWith.coherent forked_reachable).indexed
  have hone := Chain.activations_of_empty hindexed spendsGenesis_challenges.orphans order
    spendsGenesis
  have hsame : ∀ view ∈ [(forked (grown first)).utxo, (branched (grown first) first).utxo],
      ∀ outpoint ∈ spendsGenesis.takenOutPoints, view.lookup outpoint =
        (replayBlocks ((forked (grown first)).branch sideHash)).lookup outpoint := by
    decide +kernel
  have hside : side ≠ spendsGenesis := by decide
  constructor
  · intro a ha view hjudges
    rw [hone, List.mem_singleton] at ha
    subst ha
    rcases forked_judges hjudges with ⟨-, rfl⟩ | ⟨heq, -⟩ | ⟨-, rfl⟩
    · exact hsame _ List.mem_cons_self
    · exact absurd heq.symm hside
    · exact hsame _ (List.mem_cons_of_mem _ List.mem_cons_self)
  · intro a ha b view hjudges hne
    rw [hone, List.mem_singleton] at ha
    subst ha
    rcases forked_judges hjudges with ⟨rfl, -⟩ | ⟨rfl, -⟩ | ⟨rfl, -⟩
    · exact absurd rfl hne
    · have hbare : Chain.Bare side := ⟨⟨coin 2, 50, rfl, rfl, rfl⟩, by decide, by decide +kernel,
        by decide +kernel⟩
      have hnothing : side.takenOutPoints = [] := rfl
      refine ⟨?_, fun other _ _ ↦ hbare.transactions_ok other⟩
      intro outpoint htaken
      rw [hnothing] at htaken
      cases htaken
    · exact absurd rfl hne

theorem forked_txids : Set.InjOn Transaction.txid
    (Chain.transactionsOf (Chain.inPlay (forked (grown first)) spendsGenesis)) := by
  have hdistinct : ([coin 0, coin 1, coin 2, coin 3, spend coinId0 []].map
      Transaction.txid).Nodup := by
    decide +kernel
  have hblocks : ∀ b ∈ Chain.inPlay (forked (grown first)) spendsGenesis,
      b ∈ [genesis, first, side, spendsGenesis] := by
    rintro b (rfl | ⟨hash, entry, hentry, rfl⟩ | ⟨hash, entry, hentry, -⟩)
    · simp
    · have hknown := Chain.storeSide_known (grown first) side genesisMeta easyWork hash
      rw [show (forked (grown first)).known.lookup hash = _ from hknown] at hentry
      split at hentry
      · rw [← Option.some.inj hentry]
        simp
      · have hfirst := Chain.pushTip_known start first 1 (genesisMeta.work.add easyWork) hash
        rw [show (grown first).known.lookup hash = _ from hfirst] at hentry
        split at hentry
        · rw [← Option.some.inj hentry]
          simp
        · have hstart := Chain.pushTip_known (.blank 5000 256) genesis 0 easyWork hash
          rw [show start.known.lookup hash = _ from hstart] at hentry
          split at hentry
          · rw [← Option.some.inj hentry]
            simp
          · cases hentry
    · cases hentry
  have hmem : ∀ tx ∈ Chain.transactionsOf (Chain.inPlay (forked (grown first)) spendsGenesis),
      tx ∈ [coin 0, coin 1, coin 2, coin 3, spend coinId0 []] := by
    rintro tx ⟨b, hb, htx⟩
    have hlisted := hblocks b hb
    simp only [List.mem_cons, List.not_mem_nil, or_false] at hlisted
    rcases hlisted with rfl | rfl | rfl | rfl <;>
      simp only [genesis, first, side, spendsGenesis, List.mem_cons, List.not_mem_nil,
        or_false] at htx <;>
        grind
  intro tx htx tx' htx' heq
  exact List.inj_on_of_nodup_map hdistinct (hmem tx htx) (hmem tx' htx') heq

end Bitrst.Sample
