import Bitrst.ErrorAtomicity

/-!
# The fork walk and the reorganisation loops

Both loops of a reorganisation follow hash links without a counter.  On a
coherent chain the walk goes down the recorded heights and ends at an active
block, and the disconnect loop ends there too, so the branches for a missing
ancestor and for a missing tip are never taken.  The promotion loop takes every
orphan out of the pool once.
-/

namespace Bitrst

open Support

variable [Crypto] [Features]

/-- A loop without end, or an error that only an incoherent index causes. -/
def Stop.Internal : Stop → Prop
  | .error .missingAncestor => True
  | .error .noActiveTip => True
  | .error _ => False
  | .panic => False
  | .hang => True

namespace Chain

variable {genesis : Block} {chain : Chain} {block : Block}

/-! ## The walk and the disconnect loop -/

omit [Crypto] [Features] in
/-- A walk that has ended stays as it is under a higher bound on its turns. -/
theorem collectForkPathLoop_mono {fuel more : ℕ} (hle : fuel ≤ more) {tip : Block}
    {path : List Block} {found : List Block × Hash256}
    (hok : collectForkPathLoop chain fuel tip path = .ok found) :
    collectForkPathLoop chain more tip path = .ok found := by
  induction fuel generalizing more tip path with
  | zero => cases hok
  | succ fuel ih =>
      obtain ⟨more, rfl⟩ : ∃ n, more = n + 1 := ⟨more - 1, by omega⟩
      rw [collectForkPathLoop] at hok ⊢
      by_cases hactive : tip.header.prevBlockhash ∈ chain.activeHashes
      · simp only [if_pos hactive] at hok ⊢
        exact hok
      · simp only [if_neg hactive] at hok ⊢
        cases hparent : chain.known.lookup tip.header.prevBlockhash with
        | none =>
            rw [hparent] at hok
            cases hok
        | some entry =>
            simp only [hparent] at hok ⊢
            exact ih (Nat.le_of_succ_le_succ hle) hok

/-- The fork walk finds a linked path above an active block, however many more turns it may
take, and the disconnect loop pops the blocks above that block, from the last on, and stops
there with the genesis block still active. -/
structure ReorgWalk (genesis : Block) (chain : Chain) (block : Block) (path keep : List Block)
    (fork : Block) (post : List Block) : Prop where
  collected : ∀ fuel, chain.known.keys.card + 2 ≤ fuel →
    collectForkPathLoop chain fuel block [] = .ok (path, fork.hash)
  linked : LinkedAbove fork.hash path
  last : path.getLast? = some block
  active : fork.hash ∈ chain.activeHashes
  split : chain.blocks = keep ++ fork :: post
  turns : ∀ front back, post = front ++ back → ∀ fuel,
    disconnectLoop fork.hash (fuel + back.length) 0 chain =
      disconnectLoop fork.hash fuel back.length (rewind back chain) ∧
    (rewind back chain).blocks = keep ++ fork :: front ∧
    (rewind back chain).blocks.head? = some genesis
  stops : ∀ fuel, post.length < fuel →
    disconnectLoop fork.hash fuel 0 chain = (.ok post.length, rewind post chain)
  tip : (rewind post chain).tipHash = fork.hash

omit [Features] in
theorem Indexed.exists_reorgWalk (h : Indexed genesis chain) {parent : BlockMeta}
    (hparent : chain.known.lookup block.header.prevBlockhash = some parent) :
    ∃ path keep fork post, ReorgWalk genesis chain block path keep fork post := by
  obtain ⟨path, keep, fork, post, hf⟩ := h.exists_forkPoint hparent
  refine ⟨path, keep, fork, post, ?_, hf.path.linked, ?_, hf.path.active, hf.split, ?_, ?_,
    hf.rewind_tipHash⟩
  · intro fuel hfuel
    exact collectForkPathLoop_mono hfuel hf.collected
  · obtain ⟨stored, rfl, -⟩ := hf.path.last
    exact List.getLast?_concat
  · intro front back hpost fuel
    have hblocks : chain.blocks = keep ++ fork :: (front ++ back) := hpost ▸ hf.split
    have hsplit : chain.blocks = (keep ++ fork :: front) ++ back := by simpa using hblocks
    have hturns := disconnectLoop_turns h hblocks fuel 0
    rw [Nat.zero_add] at hturns
    exact ⟨hturns, rewind_blocks hsplit, (h.rewind hsplit (by simp)).head⟩
  · intro fuel hfuel
    have hloop := disconnectLoop_eq h hf.split hfuel 0
    rwa [Nat.zero_add] at hloop

/-! ## Errors of the checks -/

omit [Crypto] [Features] in
theorem validateBlockLimits_not_internal {e : ChainError}
    (herror : validateBlockLimits block = .error e) : ¬ (Stop.error e).Internal := by
  unfold validateBlockLimits at herror
  split at herror
  · obtain rfl := Except.error.inj herror
    exact id
  · split at herror
    · obtain rfl := Except.error.inj herror
      exact id
    · split at herror
      · obtain rfl := Except.error.inj herror
        exact id
      · cases herror

omit [Crypto] in
theorem expectedBits_not_internal (hblocks : chain.blocks ≠ []) {height : ℕ} {bits : UInt32}
    {e : Stop} (herror : chain.expectedBits height bits = .error e) : ¬ e.Internal := by
  unfold expectedBits at herror
  split at herror
  · cases herror
  · split at herror
    · split at herror
      · rename_i hlast
        exact (hblocks (List.getLast?_eq_none_iff.mp hlast)).elim
      · cases herror
    · simp only at herror
      split at herror
      · cases herror
      · split at herror
        · split at herror
          · obtain rfl := Except.error.inj herror
            exact id
          · cases herror
        · obtain rfl := Except.error.inj herror
          exact id

omit [Crypto] in
theorem HeaderFault.not_internal (hblocks : chain.blocks ≠ []) {height : ℕ} {e : Stop}
    (h : HeaderFault chain block height e) : ¬ e.Internal := by
  cases h with
  | demanded hdemanded => exact expectedBits_not_internal hblocks hdemanded
  | _ => exact id

omit [Crypto] [Features] in
theorem spendOnce_not_internal {inputs : List TxInput} {spent : List OutPoint} {e : ChainError}
    (herror : spendOnce inputs spent = .error e) : ¬ (Stop.error e).Internal := by
  induction inputs generalizing spent with
  | nil => cases herror
  | cons input rest ih =>
      rw [spendOnce] at herror
      split at herror
      · obtain rfl := Except.error.inj herror
        exact id
      · exact ih herror

omit [Features] in
theorem validateBlockTransaction_not_internal {tx : Transaction} {view : UtxoSet}
    {spent : List OutPoint} {e : ChainError}
    (herror : validateBlockTransaction tx view spent = .error e) :
    ¬ (Stop.error e).Internal := by
  unfold validateBlockTransaction at herror
  split at herror
  · rename_i found hspend
    obtain rfl := Except.error.inj herror
    split at hspend
    · cases hspend
    · exact spendOnce_not_internal hspend
  · split at herror
    · obtain rfl := Except.error.inj herror
      exact id
    · split at herror
      · cases herror
      · split at herror
        · obtain rfl := Except.error.inj herror
          exact id
        · split at herror
          · rename_i found _
            obtain rfl := Except.error.inj herror
            cases found <;> exact id
          · cases herror

omit [Features] in
theorem validateBlockTransactionsLoop_not_internal {txs : List Transaction} {view : UtxoSet}
    {spent : List OutPoint} {e : ChainError}
    (herror : validateBlockTransactionsLoop txs view spent = .error e) :
    ¬ (Stop.error e).Internal := by
  induction txs generalizing view spent with
  | nil => cases herror
  | cons tx rest ih =>
      rw [validateBlockTransactionsLoop] at herror
      split at herror
      · rename_i found htx
        obtain rfl := Except.error.inj herror
        exact validateBlockTransaction_not_internal htx
      · exact ih herror

theorem validateBlockForParent_not_internal (hblocks : chain.blocks ≠ [])
    {parent : Option Block} {parentHash : Option Hash256} {height : ℕ} {e : Stop}
    (herror : chain.validateBlockForParent block parent parentHash height = .error e) :
    ¬ e.Internal := by
  rcases validateBlockForParent_error_cases herror with hheader | ⟨found, htransactions, rfl⟩
  · exact hheader.not_internal hblocks
  · exact validateBlockTransactionsLoop_not_internal htransactions

omit [Crypto] [Features] in
theorem blockWork_not_internal {bits : UInt32} {e : ChainError}
    (herror : blockWork bits = .error e) : ¬ (Stop.error e).Internal := by
  unfold blockWork at herror
  split at herror
  · obtain rfl := Except.error.inj herror
    exact id
  · split at herror
    · obtain rfl := Except.error.inj herror
      exact id
    · cases herror

/-! ## Errors of a call -/

theorem admission_not_internal (hblocks : chain.blocks ≠ []) {e : Stop}
    (herror : chain.admission block = .error e) : ¬ e.Internal := by
  unfold admission at herror
  split at herror
  · rename_i found hlimits
    obtain rfl := Except.error.inj herror
    exact validateBlockLimits_not_internal hlimits
  · split at herror
    · obtain rfl := Except.error.inj herror
      exact id
    · split at herror
      · cases herror
      · split at herror
        · rename_i stop hvalid
          obtain rfl := Except.error.inj herror
          exact validateBlockForParent_not_internal hblocks hvalid
        · split at herror
          · rename_i found hwork
            obtain rfl := Except.error.inj herror
            exact blockWork_not_internal hwork
          · cases herror

theorem connectForkPath_not_internal {path : List Block} (hblocks : chain.blocks ≠ []) {e : Stop}
    (herror : (connectForkPath path chain).1 = .error e) : ¬ e.Internal := by
  induction path generalizing chain with
  | nil => cases herror
  | cons next rest ih =>
      rw [connectForkPath] at herror
      cases hvalid : chain.validateBlockForParent next chain.blocks.getLast?
          (some next.header.prevBlockhash) (chain.height + 1) with
      | error stop =>
          simp only [hvalid] at herror
          obtain rfl := Except.error.inj herror
          exact validateBlockForParent_not_internal hblocks hvalid
      | ok _ =>
          cases hwork : blockWork next.header.bits with
          | error found =>
              simp only [hvalid, hwork] at herror
              obtain rfl := Except.error.inj herror
              exact blockWork_not_internal hwork
          | ok work =>
              simp only [hvalid, hwork] at herror
              exact ih (List.append_ne_nil_of_right_ne_nil _ (List.cons_ne_nil _ _)) herror

/-- Connecting a block alone fails for a reason of its own. -/
theorem connectAlone_not_internal (h : Indexed genesis chain) (order : OrphanOrder) {e : Stop}
    (herror : (connectAlone order block chain).1 = .error e) : ¬ e.Internal := by
  rw [connectAlone_eq] at herror
  cases hadm : chain.admission block with
  | error stop =>
      simp only [hadm] at herror
      obtain rfl := Except.error.inj herror
      exact admission_not_internal h.blocks_ne_nil hadm
  | ok found =>
      rw [hadm] at herror
      cases found with
      | none => cases herror
      | some pair =>
          have hplace := place_placement h (admission_some_iff.mp hadm)
          simp only at herror
          generalize chain.place block pair.1 pair.2 = outcome at *
          cases hplace with
          | extended _ => cases herror
          | side _ _ => cases herror
          | reorganized _ _ _ _ => cases herror
          | failed stop _ _ _ forks fails _ _ =>
              obtain rfl := Except.error.inj herror
              exact connectForkPath_not_internal (forks.rewind_indexed h).blocks_ne_nil fails

/-! ## The promotion loop -/

omit [Crypto] [Features] in
theorem dequeueOrphan_count (state : OrphanMap × List Block) (hash : Hash256) :
    (dequeueOrphan state hash).1.entries.length + (dequeueOrphan state hash).2.length =
      state.1.entries.length + state.2.length := by
  unfold dequeueOrphan
  split
  · rename_i entry hentry
    have herase := EntryMap.length_erase_add_one hentry
    simp only [List.length_append, List.length_singleton]
    omega
  · rfl

omit [Crypto] [Features] in
/-- The ready orphans move from the pool to the queue. -/
theorem enqueueReadyOrphans_count (order : OrphanOrder) (chain : Chain) (queue : List Block) :
    (chain.enqueueReadyOrphans order queue).1.orphans.entries.length +
        (chain.enqueueReadyOrphans order queue).2.length =
      chain.orphans.entries.length + queue.length := by
  have hfold : ∀ (ready : List Hash256) (state : OrphanMap × List Block),
      (ready.foldl dequeueOrphan state).1.entries.length +
          (ready.foldl dequeueOrphan state).2.length =
        state.1.entries.length + state.2.length := by
    intro ready
    induction ready with
    | nil => exact fun _ ↦ rfl
    | cons hash rest ih =>
        intro state
        rw [List.foldl_cons, ih, dequeueOrphan_count]
  exact hfold _ (chain.orphans, queue)

/-- The queued blocks are orphans that were in the pool, or were queued before, and have a
known parent. -/
def ParentsKnown (chain : Chain) (queue : List Block) : Prop :=
  ∀ b ∈ queue, chain.known.lookup b.header.prevBlockhash ≠ none

omit [Crypto] [Features] in
/-- What is queued was queued before or is the block of an orphan taken out of the pool. -/
theorem mem_foldl_dequeueOrphan {ready : List Hash256} {state : OrphanMap × List Block} {b : Block}
    (hb : b ∈ (ready.foldl dequeueOrphan state).2) :
    b ∈ state.2 ∨
      ∃ hash ∈ ready, ∃ entry, state.1.lookup hash = some entry ∧ entry.block = b := by
  induction ready generalizing state with
  | nil => exact Or.inl hb
  | cons hash rest ih =>
      rcases ih hb with hqueued | ⟨key, hkey, entry, hentry, hblock⟩
      · unfold dequeueOrphan at hqueued
        split at hqueued
        · rename_i entry hentry
          rcases List.mem_append.mp hqueued with hold | hnew
          · exact Or.inl hold
          · exact Or.inr
              ⟨hash, List.mem_cons_self, entry, hentry, (List.mem_singleton.mp hnew).symm⟩
        · exact Or.inl hqueued
      · exact Or.inr ⟨key, List.mem_cons_of_mem _ hkey, entry,
          dequeueOrphan_fewer state hash key entry hentry, hblock⟩

omit [Crypto] [Features] in
theorem enqueueReadyOrphans_parentsKnown (order : OrphanOrder) {queue : List Block}
    (hqueue : ParentsKnown chain queue) :
    ParentsKnown (chain.enqueueReadyOrphans order queue).1
      (chain.enqueueReadyOrphans order queue).2 := by
  intro b hb
  rcases mem_foldl_dequeueOrphan hb with hold | ⟨hash, hmem, entry, hentry, rfl⟩
  · exact hqueue b hold
  · obtain ⟨⟨key, found⟩, hfound, rfl⟩ := List.mem_map.mp hmem
    obtain ⟨hiter, hknown⟩ := List.mem_filter.mp hfound
    have hlookup := EntryMap.mem_entries_iff.mp ((order.perm _).mem_iff.mp hiter)
    obtain rfl := Option.some.inj (hentry.symm.trans hlookup)
    exact Option.isSome_iff_ne_none.mp hknown

/-- A block with a known parent is not stored as an orphan. -/
theorem connectAlone_orphans (h : Indexed genesis chain) (order : OrphanOrder)
    (hparent : chain.known.lookup block.header.prevBlockhash ≠ none) :
    (connectAlone order block chain).2.orphans = chain.orphans ∧
      ∀ hash, chain.known.lookup hash ≠ none →
        (connectAlone order block chain).2.known.lookup hash ≠ none := by
  rw [connectAlone_eq]
  cases hadm : chain.admission block with
  | error stop => exact ⟨rfl, fun _ hknown ↦ hknown⟩
  | ok found =>
      cases found with
      | none => exact (hparent (admission_none_iff.mp hadm).2.2.2).elim
      | some pair =>
          have hadmitted := admission_some_iff.mp hadm
          exact ⟨place_orphans h hadmitted, fun hash hknown hnone ↦
            hknown ((place_placement h hadmitted).known hash hnone)⟩

/-- Each turn takes a block off the queue and stores none back, so the loop ends. -/
theorem processOrphansLoop_not_internal (order : OrphanOrder) (fuel : ℕ) (queue : List Block)
    (h : Coherent genesis chain) (hqueue : ParentsKnown chain queue)
    (hfuel : chain.orphans.entries.length + queue.length < fuel) {e : Stop}
    (herror : (processOrphansLoop order fuel queue chain).1 = .error e) : ¬ e.Internal := by
  induction fuel generalizing queue chain with
  | zero => exact (Nat.not_lt_zero _ hfuel).elim
  | succ fuel ih =>
      cases queue with
      | nil => cases herror
      | cons next queue =>
          have hcoherent := connectAlone_coherent h order next
          obtain ⟨horphans, hknown⟩ :=
            connectAlone_orphans h.indexed order (hqueue next List.mem_cons_self)
          unfold processOrphansLoop at herror
          cases hconnect : connectAlone order next chain with
          | mk outcome placed =>
            rw [hconnect] at herror hcoherent horphans hknown
            cases outcome with
            | error stop =>
                obtain rfl := Except.error.inj herror
                exact connectAlone_not_internal h.indexed order (by rw [hconnect])
            | ok result =>
                have hrest : ParentsKnown placed queue := fun b hb ↦
                  hknown _ (hqueue b (List.mem_cons_of_mem _ hb))
                have hcount := enqueueReadyOrphans_count order placed queue
                have hpool : placed.orphans.entries.length = chain.orphans.entries.length :=
                  congrArg (fun orphans : OrphanMap ↦ orphans.entries.length) horphans
                refine ih _ ((enqueueReadyOrphans_fewer order placed queue).coherent hcoherent)
                  (enqueueReadyOrphans_parentsKnown order hrest) ?_ herror
                rw [List.length_cons] at hfuel
                omega

theorem processOrphans_not_internal (order : OrphanOrder) (h : Coherent genesis chain) {e : Stop}
    (herror : (processOrphans order chain).1 = .error e) : ¬ e.Internal := by
  have hcount := enqueueReadyOrphans_count order chain []
  refine processOrphansLoop_not_internal order (chain.orphans.entries.length + 1) _
    ((enqueueReadyOrphans_fewer order chain []).coherent h)
    (enqueueReadyOrphans_parentsKnown order fun _ hb ↦ by cases hb) ?_ herror
  rw [List.length_nil] at hcount
  omega

theorem connectBlock_not_internal (h : Coherent genesis chain) (order : OrphanOrder) {e : Stop}
    (herror : (connectBlock order block chain).1 = .error e) : ¬ e.Internal := by
  have hcoherent := connectAlone_coherent h order block
  rw [connectBlock_eq] at herror
  cases hconnect : connectAlone order block chain with
  | mk outcome placed =>
    rw [hconnect] at herror hcoherent
    cases outcome with
    | error stop =>
        obtain rfl := Except.error.inj herror
        exact connectAlone_not_internal h.indexed order (by rw [hconnect])
    | ok result =>
        simp only at herror
        split at herror
        · cases hprocess : processOrphans order placed with
          | mk promoted done =>
            rw [hprocess] at herror
            cases promoted with
            | error stop =>
                obtain rfl := Except.error.inj herror
                exact processOrphans_not_internal order hcoherent (by rw [hprocess])
            | ok _ => cases herror
        · cases herror

/-- Wherever a call on a reachable chain looks for the fork of a block with a known parent, the
walk and the disconnect loop end at it, and the call neither runs on nor returns an error for a
missing ancestor or tip. -/
theorem reorganisation_sound (h : Reachable genesis chain) (order : OrphanOrder) (block : Block) :
    (∀ a ∈ activations order block chain, ∀ parent,
      a.1.known.lookup a.2.header.prevBlockhash = some parent →
        ∃ path keep fork post, ReorgWalk genesis a.1 a.2 path keep fork post) ∧
    ∀ e, (connectBlock order block chain).1 = .error e → ¬ e.Internal := by
  have hc := ReachableWith.coherent h
  constructor
  · intro a ha parent hparent
    exact (activations_coherent hc order block a ha).indexed.exists_reorgWalk hparent
  · intro e herror
    exact connectBlock_not_internal hc order herror

end Chain

end Bitrst

namespace Bitrst.Sample

theorem sideNext_walks : ∃ path keep fork post,
    Chain.ReorgWalk genesis (forked (grown first)) sideNext path keep fork post := by
  have hparent : (forked (grown first)).known.lookup sideNext.header.prevBlockhash =
      some sideMeta := by decide +kernel
  exact (Chain.reorganisation_sound forked_reachable order sideNext).1 _ List.mem_cons_self _
    hparent

end Bitrst.Sample
