import Bitrst.OrphanPromotion
import Bitrst.SameTree

/-!
# Refused blocks

The work recorded for a block is its parent's plus its own.  So a block that a failed
reorganisation connects on its way is indexed again with what it had, and a refused
block leaves the block tree as it was.
-/

namespace Bitrst

open Support

variable [Crypto] [Features]

namespace Chain

variable {genesis : Block} {chain chain' : Chain} {block : Block} {parent : BlockMeta}
  {work : ChainWork}

omit [Features] in
/-- Every indexed block other than genesis has the sum of its parent's work and its own. -/
def Summed (genesis : Block) (chain : Chain) : Prop :=
  ∀ hash entry, chain.known.lookup hash = some entry → hash = genesis.hash ∨
    ∃ parent own, chain.known.lookup entry.block.header.prevBlockhash = some parent ∧
      blockWork entry.block.header.bits = .ok own ∧ entry.work = parent.work.add own

omit [Features] in
/-- A block is indexed above its parent, for the first time or with the work it had. -/
theorem Summed.insert (h : Summed genesis chain) {height : ℕ} {undo : List TxUndo}
    (hparent : chain.known.lookup block.header.prevBlockhash = some parent)
    (hwork : blockWork block.header.bits = .ok work)
    (hne : block.header.prevBlockhash ≠ block.hash)
    (hsame : ∀ entry, chain.known.lookup block.hash = some entry →
      entry.work = parent.work.add work)
    (hknown : chain'.known =
      Finmap.insert block.hash ⟨block, height, parent.work.add work, undo⟩ chain.known) :
    Summed genesis chain' := by
  intro hash entry hentry
  simp only [hknown, HashMap.lookup_insert_ite] at hentry ⊢
  split at hentry
  · obtain rfl := Option.some.inj hentry
    exact Or.inr ⟨parent, work, by rw [if_neg hne, hparent], hwork, rfl⟩
  · rcases h hash entry hentry with hgen | ⟨below, own, hbelow, hown, hsum⟩
    · exact Or.inl hgen
    · apply Or.inr
      split
      · rename_i heq
        rw [heq] at hbelow
        exact ⟨_, own, rfl, hown, hsum.trans (congrArg (·.add own) (hsame below hbelow))⟩
      · exact ⟨below, own, hbelow, hown, hsum⟩

/-- The blocks of a fork path that were indexed are indexed again with what they had. -/
theorem ForkPoint.connects_recorded (h : Indexed genesis chain) (hsummed : Summed genesis chain)
    {path keep post front back : List Block} {fork : Block} {reached : Chain}
    (hunknown : chain.known.lookup block.hash = none)
    (hf : ForkPoint chain block path keep fork post) (hparts : path = front ++ back)
    (hconnects : ConnectsPath front (Chain.rewind post chain) reached) :
    Summed genesis reached ∧
      ∀ hash, chain.known.lookup hash ≠ none → reached.recorded hash = chain.recorded hash := by
  have hready : PathReady genesis (Chain.rewind post chain) front :=
    PathReady.front (hparts ▸ hf.pathReady h hunknown)
  have hstart : Summed genesis (Chain.rewind post chain) ∧ ∀ hash,
      chain.known.lookup hash ≠ none →
        (Chain.rewind post chain).recorded hash = chain.recorded hash := by
    unfold Summed recorded
    simp only [rewind_known]
    exact ⟨hsummed, fun _ _ ↦ trivial⟩
  refine (PathReady.induction_on_path (fun current ↦ Summed genesis current ∧ ∀ hash,
    chain.known.lookup hash ≠ none → current.recorded hash = chain.recorded hash) ?_ hconnects
    (hf.rewind_indexed h) hready hstart).2
  rintro current b rest own hb hindexed hp ⟨-, hown⟩ ⟨hcurrent, hkept⟩
  have hpush := hp.pushable hindexed
  obtain ⟨tip, htip, hheight⟩ := hp.parent_eq hindexed
  have hparentWork : current.parentWork b = tip.work := by
    rw [parentWork, htip]
    rfl
  have hknown : (current.pushForkBlock b own).known = Finmap.insert b.hash
      ⟨b, current.height + 1, tip.work.add own,
        current.utxo.transactionUndos b.transactions⟩ current.known := by
    rw [pushForkBlock, hparentWork]
    rfl
  have hsame : ∀ entry, current.known.lookup b.hash = some entry →
      entry.work = tip.work.add own := by
    intro entry hentry
    rcases hcurrent _ entry hentry with hgen | ⟨below, work, hbelow, hwork, hsum⟩
    · exact (hp.not_genesis b List.mem_cons_self hgen).elim
    · rw [(hpush.indexed entry hentry).1] at hbelow hwork
      rw [htip] at hbelow
      rw [hown] at hwork
      obtain rfl := Option.some.inj hbelow
      obtain rfl := Except.ok.inj hwork
      exact hsum
  have hne : b.header.prevBlockhash ≠ b.hash := by
    obtain ⟨below, last, -, hblocks, htipHash, -⟩ := hindexed.exists_tip
    rw [hpush.prev, htipHash]
    exact hindexed.ne_of_mem_of_pushable hpush (by simp [hblocks])
  refine ⟨hcurrent.insert htip hown hne hsame hknown, fun hash hhash ↦ ?_⟩
  rw [SameTree.recorded_insert hknown]
  split
  · rename_i heq
    subst heq
    rw [← hkept b.hash hhash]
    have hsome : current.known.lookup b.hash ≠ none := by
      intro hnone
      have hold := hkept b.hash hhash
      rw [recorded, hnone] at hold
      exact hhash (Option.map_eq_none_iff.mp hold.symm)
    obtain ⟨entry, hentry⟩ := Option.ne_none_iff_exists'.mp hsome
    obtain ⟨hblock, hposition⟩ := hpush.indexed entry hentry
    have hentryHeight : entry.height = current.height + 1 := by
      rw [hposition, PathReady.height_add_one hindexed]
    rw [recorded, hentry, Option.map_some, BlockMeta.bare, BlockMeta.bare, hblock, hentryHeight,
      hsame entry hentry]
  · exact hkept hash hhash

theorem Placement.summed (h : Indexed genesis chain) (hsummed : Summed genesis chain)
    (hadm : Admitted chain block parent work) {outcome : ChainResult ConnectResult × Chain}
    (hplace : Placement chain block parent work outcome) : Summed genesis outcome.2 := by
  have hne : block.header.prevBlockhash ≠ block.hash := by
    intro heq
    have hparent := hadm.parent_known
    rw [heq, hadm.unknown] at hparent
    cases hparent
  cases hplace with
  | extended _ =>
      exact hsummed.insert hadm.parent_known hadm.block_work hne (by simp [hadm.unknown]) rfl
  | side _ _ =>
      exact hsummed.insert hadm.parent_known hadm.block_work hne (by simp [hadm.unknown]) rfl
  | reorganized _ _ forks connects =>
      exact (forks.connects_recorded h hsummed hadm.unknown (List.append_nil _).symm connects).1
  | failed _ _ _ _ forks _ parts connects =>
      exact (forks.connects_recorded h hsummed hadm.unknown parts connects).1

theorem Summed.connectAlone (hsummed : Summed genesis chain) (h : Indexed genesis chain)
    (order : OrphanOrder) (block : Block) :
    Summed genesis (Chain.connectAlone order block chain).2 := by
  rw [connectAlone_eq]
  cases hadm : chain.admission block with
  | error stop => exact hsummed
  | ok found =>
      cases found with
      | none =>
          obtain ⟨orphans, seq, journal, heq, -⟩ := insertOrphan_spec order chain block
          simp only [heq]
          exact hsummed
      | some pair =>
          have hadmitted := admission_some_iff.mp hadm
          exact (place_placement h hadmitted).summed h hsummed hadmitted

theorem withJournalCapacities_summed {networkTime : UInt32} {capacity : ℕ}
    (created : withJournalCapacities genesis networkTime capacity = .ok chain) :
    Summed genesis chain := by
  obtain ⟨work, -, rfl⟩ := withJournalCapacities_spec created
  intro hash entry hentry
  rw [pushTip_known] at hentry
  split at hentry
  · exact Or.inl ‹hash = genesis.hash›
  · simp at hentry

theorem ConnectsPath.networkTime_eq {path : List Block} {done : Chain}
    (h : ConnectsPath path chain done) : done.networkTime = chain.networkTime := by
  induction h with
  | nil => rfl
  | cons _ _ ih => exact ih

/-- A block that is refused leaves the block tree and the orphans as they were. -/
theorem connectAlone_error_sameTree (h : Indexed genesis chain) (hsummed : Summed genesis chain)
    (order : OrphanOrder) {stop : Stop}
    (herror : (connectAlone order block chain).1 = .error stop) :
    SameTree chain (connectAlone order block chain).2 ∧
      (connectAlone order block chain).2.orphans = chain.orphans := by
  rw [connectAlone_eq] at herror ⊢
  cases hadm : chain.admission block with
  | error stop => exact ⟨.refl chain, rfl⟩
  | ok found =>
      rw [hadm] at herror
      cases found with
      | none => cases herror
      | some pair =>
          have hadmitted := admission_some_iff.mp hadm
          have hplace := place_placement h hadmitted
          simp only at herror ⊢
          refine ⟨?_, place_orphans h hadmitted⟩
          generalize chain.place block pair.1 pair.2 = outcome at *
          cases hplace with
          | extended _ => cases herror
          | side _ _ => cases herror
          | reorganized _ _ _ _ => cases herror
          | @failed path keep post front back fork next reached _ _ _ _ forks _ parts connects =>
              obtain ⟨-, hkept⟩ :=
                forks.connects_recorded h hsummed hadmitted.unknown parts connects
              refine ⟨⟨rfl, rfl, rfl, rfl⟩, fun hash ↦ ?_, fun hash hactive ↦ ?_, ?_⟩
              · by_cases hnone : chain.known.lookup hash = none
                · have hreached := forks.connects_known parts connects hnone
                  change reached.recorded hash = chain.recorded hash
                  rw [recorded, recorded, hnone, hreached]
                · exact hkept hash hnone
              · change reached.undoOf hash = chain.undoOf hash
                rw [undoOf, undoOf, connects.known_eq, rewind_known]
                rintro b hb rfl
                exact forks.notMem_active h hadmitted.unknown
                  (parts ▸ List.mem_append_left _ hb) hactive
              · exact connects.networkTime_eq.trans (rewind_networkTime _ _)

end Chain

end Bitrst
