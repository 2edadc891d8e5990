import Bitrst.Ledger

/-!
# The event stream as a log of the active chain

Every event that announces a block is a move of the stack the chain follows,
so replaying the whole stream rebuilds the active chain.  A reorganisation that
fails has announced its moves already; the rollback announces nothing.
-/

namespace Bitrst

open Support

variable [Crypto] [Features]

/-- Replay the events on an empty list of hashes: a connected hash goes to
exactly its height, a disconnected one has to be the last, at its height. -/
def replayEvents (events : List ChainEvent) : Option (List Hash256) :=
  Move.replayAll (events.filterMap ChainEvent.move?) []

namespace Chain

variable {genesis : Block} {chain : Chain}

/-- The chain follows a stack whose moves are the ones announced. -/
def Logged (chain : Chain) : Prop :=
  ∃ moves ledger, UndoStack.Run Block.patches ⟨[], ∅⟩ moves ledger ∧ Follows chain ledger ∧
    chain.announced = moves.map (Move.map Block.hash)

omit [Features] in
theorem Logged.replayEvents_eq (h : Logged chain) :
    replayEvents chain.eventJournal.pushed = some (chain.blocks.map Block.hash) := by
  obtain ⟨moves, ledger, hrun, hfollows, hannounced⟩ := h
  have hreplay := Move.replayAll_map Block.hash hrun.replay
  rw [← hannounced, ← hfollows.blocks] at hreplay
  exact hreplay

omit [Features] in
theorem Logged.moved (h : Logged chain) {chain' : Chain}
    (hmoved : ∀ ledger, Follows chain ledger →
      ∃ moves ledger', Moved chain chain' ledger ledger' moves) : Logged chain' := by
  obtain ⟨moves, ledger, hrun, hfollows, hannounced⟩ := h
  obtain ⟨moves', ledger', hnext⟩ := hmoved ledger hfollows
  exact ⟨moves ++ moves', ledger', hrun.append hnext.run, hnext.follows,
    by rw [hnext.announced, hannounced, List.map_append]⟩

omit [Features] in
theorem Logged.congr (h : Logged chain) {chain' : Chain} (hblocks : chain'.blocks = chain.blocks)
    (hutxo : chain'.utxo = chain.utxo) (hknown : chain'.known = chain.known)
    (hpushed : chain'.eventJournal.pushed = chain.eventJournal.pushed) : Logged chain' := by
  obtain ⟨moves, ledger, hrun, hfollows, hannounced⟩ := h
  refine ⟨moves, ledger, hrun, hfollows.congr hblocks hutxo fun _ _ ↦ by rw [hknown], ?_⟩
  rw [announced, hpushed]
  exact hannounced

/-- If the block makes the chain reorganise, every block of the fork path passes
validation when its turn comes. -/
def ReorgCompletes (chain : Chain) (block : Block) : Prop :=
  ∀ parent work path keep fork post, Admitted chain block parent work →
    block.header.prevBlockhash ≠ chain.tipHash →
      ¬ (parent.work.add work).le chain.totalWork →
        ForkPoint chain block path keep fork post →
          ∃ done, ConnectsPath path (rewind post chain) done

/-- Under the condition a placed block moves the stack. -/
theorem place_moved (h : Indexed genesis chain) {block : Block} {parent : BlockMeta}
    {work : ChainWork} (hadm : Admitted chain block parent work)
    (hcompletes : ReorgCompletes chain block) {ledger : Ledger} (hfollows : Follows chain ledger) :
    ∃ moves ledger', Moved chain (chain.place block parent work).2 ledger ledger' moves := by
  have hplace := place_placement h hadm
  rcases hplace.moved h hadm hfollows with hmoved | ⟨⟨e, herror⟩, -⟩
  · exact hmoved
  · -- an error can only come from a fork path that does not connect
    exfalso
    generalize chain.place block parent work = outcome at *
    cases hplace with
    | extended _ => cases herror
    | side _ _ => cases herror
    | reorganized _ _ _ _ => cases herror
    | failed _ _ tip heavier forks fails _ _ =>
        obtain ⟨done, hconnects⟩ := hcompletes _ _ _ _ _ _ hadm tip heavier forks
        rw [connectForkPath_ok_iff.mpr hconnects] at fails
        cases fails

theorem connectAlone_logged (h : Coherent genesis chain) (hlogged : Logged chain)
    (order : OrphanOrder) {block : Block} (hcompletes : ReorgCompletes chain block) :
    Logged (connectAlone order block chain).2 := by
  refine hlogged.moved fun ledger hfollows ↦ ?_
  rw [connectAlone_eq]
  cases hadm : chain.admission block with
  | error e => exact ⟨[], ledger, .refl hfollows⟩
  | ok found =>
      cases found with
      | none => exact ⟨[], ledger, insertOrphan_moved hfollows order block⟩
      | some pair =>
          exact place_moved h.indexed (admission_some_iff.mp hadm) hcompletes hfollows

theorem withJournalCapacities_logged {networkTime : UInt32} {capacity : ℕ}
    (h : withJournalCapacities genesis networkTime capacity = .ok chain) : Logged chain := by
  obtain ⟨hfollows, hannounced⟩ := withJournalCapacities_follows h
  exact ⟨[.push 0 genesis], _, .push genesis (.nil _), hfollows, hannounced⟩

theorem ReachableWith.logged (h : ReachableWith ReorgCompletes genesis chain) :
    Coherent genesis chain ∧ Logged chain :=
  h.invariant (fun chain ↦ Coherent genesis chain ∧ Logged chain)
    (fun _ _ _ created ↦
      ⟨withJournalCapacities_coherent created, withJournalCapacities_logged created⟩)
    (by
      rintro c _ ⟨hc, hlogged⟩ hfewer
      refine ⟨hfewer.coherent hc, ?_⟩
      obtain ⟨orphans, rfl, -⟩ := hfewer
      exact hlogged.congr rfl rfl rfl rfl)
    (fun order _ block hc hcompletes ↦
      ⟨connectAlone_coherent hc.1 order block, connectAlone_logged hc.1 hc.2 order hcompletes⟩)
    (fun _ _ hc ↦ ⟨hc.1.congr rfl rfl rfl rfl, hc.2.congr rfl rfl rfl rfl⟩)
    (fun _ _ hc ↦ ⟨hc.1.congr rfl rfl rfl rfl, hc.2.congr rfl rfl rfl rfl⟩)

/-- In a run without a failing reorganisation the events replay to the active chain. -/
theorem reachable_events_replay (h : ReachableWith ReorgCompletes genesis chain) :
    replayEvents chain.eventJournal.pushed = some (chain.blocks.map Block.hash) :=
  h.logged.2.replayEvents_eq

end Chain

end Bitrst

namespace Bitrst.Sample

open Support

theorem switched_completes : Chain.ReachableWith Chain.ReorgCompletes genesis
    (switched (grown first) first sideNext) := by
  apply switched_reachable
  · intro _ _ _ _ _ _ _ htip
    exact absurd first_opens.tip htip
  · intro _ _ _ _ _ _ hadm _ hheavier
    obtain ⟨rfl, rfl⟩ := first_splits.admitted.unique hadm
    exact absurd first_splits.lighter hheavier
  · intro _ _ _ _ _ _ _ _ _ hf
    obtain ⟨hchallenges, hvalid⟩ := sideNext_challenges
    obtain ⟨rfl, rfl, rfl, rfl⟩ := hchallenges.fork_eq (by decide +kernel) hf
    exact ⟨_, .cons ⟨hchallenges.side_valid, blockWork_easyBits⟩
      (.cons ⟨hvalid, blockWork_easyBits⟩ (.nil _))⟩

theorem switched_events_replay :
    replayEvents (switched (grown first) first sideNext).eventJournal.pushed =
      some [genesis.hash, side.hash, sideNext.hash] :=
  Chain.reachable_events_replay switched_completes

/-- A failing reorganisation is rolled back, and the rollback leaves its events in the
journal. -/
theorem failed_reorg_stays_logged :
    Chain.Reachable genesis (Chain.connectBlock order spendsFirst (forked (grown first))).2 ∧
      replayEvents
          (Chain.connectBlock order spendsFirst (forked (grown first))).2.eventJournal.pushed ≠
        some ((Chain.connectBlock order spendsFirst
          (forked (grown first))).2.blocks.map Block.hash) := by
  have hreturned :
      Returned (Chain.connectBlock order spendsFirst (forked (grown first))).1 := by
    rw [spendsFirst_fails]
    simp [Returned]
  refine ⟨forked_reachable.connect order spendsFirst hreturned fun _ _ ↦ trivial, ?_⟩
  rw [spendsFirst_fails]
  decide +kernel

end Bitrst.Sample
