import Bitrst.Ledger

/-!
# The unspent outputs are a replay of the active blocks

The undo data of a block is recorded when it is connected and used when it is
disconnected, any number of calls later.  On the stack that the chain follows
this is exactness: as long as reorganisations undo exactly, every map of the
stack is the replay of the blocks below it.
-/

namespace Bitrst

open Support

variable [Crypto] [Features]

/-- The set reached from the empty one by applying every transaction of the blocks. -/
def replayBlocks (blocks : List Block) : UtxoSet :=
  UtxoSet.applyTransactions ∅ (blocks.flatMap Block.transactions)

omit [Features] in
theorem replayBlocks_eq (blocks : List Block) :
    replayBlocks blocks = UndoStack.replayItems Block.patches blocks := by
  rw [replayBlocks, UtxoSet.applyTransactions_eq_applyAll, List.map_flatMap]
  rfl

namespace Chain

variable {genesis : Block} {chain : Chain}

/-- The chain follows a stack that is exact. -/
def Replayed (chain : Chain) : Prop :=
  ∃ ledger, Follows chain ledger ∧ UndoStack.Exact Block.patches ledger

omit [Features] in
theorem Replayed.utxo_eq (h : Replayed chain) : chain.utxo = replayBlocks chain.blocks := by
  obtain ⟨ledger, hfollows, hexact⟩ := h
  rw [hfollows.utxo, hexact.state, hfollows.blocks, replayBlocks_eq]

omit [Features] in
/-- Rewinding reads back the replay of the blocks kept precisely when no output
in use there is clobbered above. -/
theorem Replayed.rewind_utxo_iff (h : Replayed chain) {keep post : List Block}
    (hblocks : chain.blocks = keep ++ post) :
    (rewind post chain).utxo = replayBlocks keep ↔
      ∀ o, Clobbers (post.flatMap Block.patches) o → (replayBlocks keep).lookup o = none := by
  obtain ⟨⟨frames, state⟩, hfollows, hexact⟩ := h
  obtain ⟨keepFrames, postFrames, hframes, rfl, rfl⟩ := hfollows.split hblocks
  obtain rfl : frames = keepFrames ++ postFrames := hframes
  rw [hfollows.rewind.utxo, replayBlocks_eq, hexact.unwind_state_iff]

/-- If the block makes the chain reorganise, undoing the blocks above the fork
loses no output: one that they create without having spent it before is not
unspent at the fork. -/
def UndoExact (chain : Chain) (block : Block) : Prop :=
  ∀ parent work path keep fork post, Admitted chain block parent work →
    block.header.prevBlockhash ≠ chain.tipHash →
      ¬ (parent.work.add work).le chain.totalWork →
        ForkPoint chain block path keep fork post →
          (∃ done, ConnectsPath path (rewind post chain) done) →
            ∀ o, Clobbers (post.flatMap Block.patches) o →
              (replayBlocks (keep ++ [fork])).lookup o = none

theorem Placement.replayed (h : Indexed genesis chain) (hreplayed : Replayed chain)
    {block : Block} {parent : BlockMeta} {work : ChainWork}
    (hadm : Admitted chain block parent work) (hundo : UndoExact chain block)
    {outcome : ChainResult ConnectResult × Chain}
    (hplace : Placement chain block parent work outcome) : Replayed outcome.2 := by
  obtain ⟨⟨frames, state⟩, hfollows, hexact⟩ := hreplayed
  cases hplace with
  | extended tip =>
      exact ⟨_, (extendTip_moved h hadm tip hfollows).follows, hexact.push block⟩
  | side _ _ => exact ⟨_, storeSide_follows h hadm hfollows, hexact⟩
  | reorganized tip heavier forks connects =>
      have hnone := hundo _ _ _ _ _ _ hadm tip heavier forks ⟨_, connects⟩
      obtain ⟨keepFrames, postFrames, hframes, hkeep, hpost⟩ := hfollows.split forks.split'
      obtain rfl : frames = keepFrames ++ postFrames := hframes
      rw [replayBlocks_eq, ← hkeep, ← hpost] at hnone
      have hmoved := forks.moved h hadm connects hfollows hkeep hpost
      exact ⟨_, hmoved.follows.congr rfl rfl fun _ _ ↦ rfl,
        (hexact.unwind hnone).pushAll _⟩
  | failed _ _ _ _ forks _ parts connects =>
      exact ⟨_, (restoreActive_follows h forks hadm.unknown parts connects hfollows).congr
        rfl rfl fun _ _ ↦ rfl, hexact⟩

omit [Features] in
theorem Replayed.congr {chain' : Chain} (h : Replayed chain)
    (hblocks : chain'.blocks = chain.blocks) (hutxo : chain'.utxo = chain.utxo)
    (hknown : chain'.known = chain.known) : Replayed chain' := by
  obtain ⟨ledger, hfollows, hexact⟩ := h
  exact ⟨ledger, hfollows.congr hblocks hutxo fun _ _ ↦ by rw [hknown], hexact⟩

theorem withJournalCapacities_replayed {networkTime : UInt32} {capacity : ℕ}
    (h : withJournalCapacities genesis networkTime capacity = .ok chain) : Replayed chain := by
  have hbottom : UndoStack.Exact Block.patches (⟨[], ∅⟩ : Ledger) := by
    refine ⟨rfl, ?_⟩
    intro front frame back hsplit
    simp at hsplit
  exact ⟨_, (withJournalCapacities_follows h).1, hbottom.push genesis⟩

theorem connectAlone_replayed (h : Coherent genesis chain) (hreplayed : Replayed chain)
    (order : OrphanOrder) {block : Block} (hundo : UndoExact chain block) :
    Replayed (connectAlone order block chain).2 := by
  rw [connectAlone_eq]
  cases hadm : chain.admission block with
  | error e => exact hreplayed
  | ok found =>
      cases found with
      | none =>
          obtain ⟨orphans, seq, journal, heq, -⟩ := insertOrphan_spec order chain block
          simp only [heq]
          exact hreplayed.congr rfl rfl rfl
      | some pair =>
          have hadmitted := admission_some_iff.mp hadm
          exact (place_placement h.indexed hadmitted).replayed h.indexed hreplayed hadmitted hundo

theorem ReachableWith.replayed (h : ReachableWith UndoExact genesis chain) :
    Coherent genesis chain ∧ Replayed chain :=
  h.invariant (fun chain ↦ Coherent genesis chain ∧ Replayed chain)
    (fun _ _ _ created ↦
      ⟨withJournalCapacities_coherent created, withJournalCapacities_replayed created⟩)
    (by
      rintro c _ ⟨hc, hreplayed⟩ hfewer
      refine ⟨hfewer.coherent hc, ?_⟩
      obtain ⟨orphans, rfl, -⟩ := hfewer
      exact hreplayed.congr rfl rfl rfl)
    (fun order _ block hc hundo ↦
      ⟨connectAlone_coherent hc.1 order block, connectAlone_replayed hc.1 hc.2 order hundo⟩)
    (fun _ _ hc ↦ ⟨hc.1.congr rfl rfl rfl rfl, hc.2.congr rfl rfl rfl⟩)
    (fun _ _ hc ↦ ⟨hc.1.congr rfl rfl rfl rfl, hc.2.congr rfl rfl rfl⟩)

/-- In a run whose reorganisations undo exactly, the unspent outputs are the
replay of the active blocks, and disconnecting to any height reads back the
replay of the blocks kept precisely when no output in use there is clobbered. -/
theorem reachable_utxo_replay (h : ReachableWith UndoExact genesis chain) :
    chain.utxo = replayBlocks chain.blocks ∧
      ∀ keep post, chain.blocks = keep ++ post →
        ((rewind post chain).utxo = replayBlocks keep ↔
          ∀ o, Clobbers (post.flatMap Block.patches) o →
            (replayBlocks keep).lookup o = none) :=
  ⟨h.replayed.2.utxo_eq, fun _ _ hblocks ↦ h.replayed.2.rewind_utxo_iff hblocks⟩

end Chain

end Bitrst

namespace Bitrst.Sample

open Support

/-- The blocks that a run disconnects create nothing that the genesis block has. -/
theorem disconnected_apart : ∀ block ∈ [first, sideNext], ∀ patch ∈ block.patches,
    ∀ outpoint ∈ patch.writes.map Prod.fst,
      (replayBlocks [genesis, side]).lookup outpoint = none ∧
        (replayBlocks [genesis]).lookup outpoint = none := by
  decide +kernel

theorem not_clobbers_of_apart {block : Block} (hblock : block ∈ [first, sideNext])
    {outpoint : OutPoint} (h : Clobbers ([block].flatMap Block.patches) outpoint) :
    (replayBlocks [genesis, side]).lookup outpoint = none ∧
      (replayBlocks [genesis]).lookup outpoint = none := by
  obtain ⟨patch, hpatch, hwrite⟩ := h.written
  rw [List.flatMap_singleton] at hpatch
  exact disconnected_apart block hblock patch hpatch outpoint hwrite

theorem switched_undoExact : Chain.ReachableWith Chain.UndoExact genesis
    (switched (grown first) first sideNext) := by
  apply switched_reachable
  · intro _ _ _ _ _ _ _ htip
    exact absurd first_opens.tip htip
  · intro _ _ _ _ _ _ hadm _ hheavier
    obtain ⟨rfl, rfl⟩ := first_splits.admitted.unique hadm
    exact absurd first_splits.lighter hheavier
  · intro _ _ _ _ _ _ _ _ _ hf _ outpoint hclobbers
    obtain ⟨-, rfl, rfl, rfl⟩ := sideNext_challenges.1.fork_eq (by decide +kernel) hf
    exact (not_clobbers_of_apart List.mem_cons_self hclobbers).2

/-- After a reorganisation the outputs are those of the new branch, and so are they one block
below the tip. -/
theorem switched_utxo_replay :
    (switched (grown first) first sideNext).utxo = replayBlocks [genesis, side, sideNext] ∧
      (Chain.rewind [sideNext] (switched (grown first) first sideNext)).utxo =
        replayBlocks [genesis, side] := by
  obtain ⟨hutxo, hrewind⟩ := Chain.reachable_utxo_replay switched_undoExact
  refine ⟨hutxo, (hrewind [genesis, side] [sideNext] rfl).mpr fun outpoint hclobbers ↦ ?_⟩
  exact (not_clobbers_of_apart (List.mem_cons_of_mem _ List.mem_cons_self) hclobbers).1

theorem repeated_run : Opens repeated ∧ Splits (grown repeated) ∧
    Challenges (grown repeated) repeated sideNext ∧
    (branched (grown repeated) repeated).validateBlockForParent sideNext
      (branched (grown repeated) repeated).blocks.getLast? (some sideNext.header.prevBlockhash)
        ((branched (grown repeated) repeated).height + 1) = .ok () ∧
    (switched (grown repeated) repeated sideNext).utxo.lookup ⟨coinId0, 0⟩ = none ∧
    (replayBlocks (switched (grown repeated) repeated sideNext).blocks).lookup
      ⟨coinId0, 0⟩ ≠ none := by
  decide +kernel

/-- A reorganisation disconnects the block that repeats the coinbase of the
genesis block, and with it the output that genesis created. -/
theorem switched_loses_output :
    Chain.Reachable genesis (switched (grown repeated) repeated sideNext) ∧
    (switched (grown repeated) repeated sideNext).utxo ≠
      replayBlocks (switched (grown repeated) repeated sideNext).blocks := by
  obtain ⟨hopens, hsplits, hchallenges, hvalid, hlost, hkept⟩ := repeated_run
  refine ⟨hchallenges.reachable (hsplits.reachable (hopens.reachable trivial) trivial) hvalid
    trivial, fun heq ↦ ?_⟩
  exact hkept (heq ▸ hlost)

end Bitrst.Sample
