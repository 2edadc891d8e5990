import Bitrst.ChainPlacement
import Bitrst.Support.Sha256

/-!
# Calls that promote nothing

Without orphans a call places its block and is done.  Runs over such calls are
built step by step from admissions, and `Fits` is the part of an admission that
a decision procedure can check.
-/

namespace Bitrst

open Support

section

variable [Crypto] [Features]

namespace Chain

variable {genesis : Block} {chain : Chain} {block : Block} {parent : BlockMeta} {work : ChainWork}

omit [Crypto] [Features] in
theorem enqueueReadyOrphans_of_empty (order : OrphanOrder) (hnone : chain.orphans = ∅)
    (queue : List Block) : chain.enqueueReadyOrphans order queue = (chain, queue) := by
  have hiter : order.iter chain.orphans.entries = [] := by
    rw [hnone]
    exact List.Perm.eq_nil (order.perm [])
  rw [enqueueReadyOrphans, hiter]
  rfl

theorem processOrphans_of_empty (order : OrphanOrder) (hnone : chain.orphans = ∅) :
    processOrphans order chain = (.ok (), chain) := by
  rw [processOrphans, enqueueReadyOrphans_of_empty order hnone]
  rfl

/-- A block without a known parent is stored as an orphan. -/
theorem connectBlock_orphaned (order : OrphanOrder) (hnone : chain.admission block = .ok none) :
    connectBlock order block chain =
      (.ok (.orphaned block.hash), chain.insertOrphan order block) := by
  rw [connectBlock_eq, connectAlone_eq, hnone]
  rfl

/-- Placing a block leaves the orphans alone. -/
theorem place_orphans (h : Indexed genesis chain) (hadm : Admitted chain block parent work) :
    (chain.place block parent work).2.orphans = chain.orphans := by
  have hplace := place_placement h hadm
  generalize chain.place block parent work = outcome at hplace
  cases hplace with
  | extended _ => rfl
  | side _ _ => rfl
  | reorganized _ _ _ connects => exact connects.orphans_eq.trans (rewind_orphans _ _)
  | failed _ _ _ _ _ _ _ connects => exact connects.orphans_eq.trans (rewind_orphans _ _)

theorem connectAlone_eq_place (order : OrphanOrder) (hadm : Admitted chain block parent work) :
    connectAlone order block chain = chain.place block parent work := by
  rw [connectAlone_eq, admission_some_iff.mpr hadm]

theorem connectBlock_eq_place (h : Indexed genesis chain) (hnone : chain.orphans = ∅)
    (order : OrphanOrder) (hadm : Admitted chain block parent work) :
    connectBlock order block chain = chain.place block parent work := by
  have hplaced := place_orphans h hadm
  rw [connectBlock_eq, connectAlone_eq_place order hadm]
  cases hplace : chain.place block parent work with
  | mk result placed =>
    rw [hplace, hnone] at hplaced
    cases result with
    | error e => rfl
    | ok result => simp [processOrphans_of_empty order hplaced]

theorem activations_eq_singleton (h : Indexed genesis chain) (hnone : chain.orphans = ∅)
    (order : OrphanOrder) (hadm : Admitted chain block parent work) :
    activations order block chain = [(chain, block)] := by
  have hplaced := place_orphans h hadm
  rw [activations, connectAlone_eq_place order hadm]
  cases hplace : chain.place block parent work with
  | mk result placed =>
    rw [hplace, hnone] at hplaced
    cases result with
    | error e => rfl
    | ok result =>
        simp only [enqueueReadyOrphans_of_empty order hplaced]
        split <;> simp [promotionActivations]

/-- A run without orphans goes on with the placement of an admitted block. -/
theorem ReachableWith.place {cond : Chain → Block → Prop} (order : OrphanOrder)
    (run : ReachableWith cond genesis chain) (h : Indexed genesis chain)
    (hnone : chain.orphans = ∅) (hadm : Admitted chain block parent work)
    (returned : Returned (chain.place block parent work).1) (meets : cond chain block) :
    ReachableWith cond genesis (chain.place block parent work).2 := by
  have hcall := connectBlock_eq_place h hnone order hadm
  rw [← hcall] at returned ⊢
  refine .connect order block run returned ?_
  rw [activations_eq_singleton h hnone order hadm]
  simpa using meets

/-! ## Sequences of calls -/

/-- The blocks are delivered one after the other, each with an iteration order. -/
def deliverAll : List (OrphanOrder × Block) → Chain → Chain
  | [], chain => chain
  | call :: rest, chain => deliverAll rest (connectBlock call.1 call.2 chain).2

theorem deliverAll_nil (chain : Chain) : deliverAll [] chain = chain := rfl

theorem deliverAll_cons (order : OrphanOrder) (block : Block)
    (rest : List (OrphanOrder × Block)) (chain : Chain) :
    deliverAll ((order, block) :: rest) chain =
      deliverAll rest (connectBlock order block chain).2 := rfl

theorem deliverAll_append (calls calls' : List (OrphanOrder × Block)) (chain : Chain) :
    deliverAll (calls ++ calls') chain = deliverAll calls' (deliverAll calls chain) := by
  induction calls generalizing chain with
  | nil => rfl
  | cons call calls ih => exact ih _

/-! ## Placing with a known outcome -/

omit [Features] in
/-- The computed fork path is where the block forks off. -/
theorem ForkPoint.of_collected (h : Indexed genesis chain)
    (hparent : chain.known.lookup block.header.prevBlockhash = some parent)
    {path keep post : List Block} {fork : Block}
    (hcollected : chain.collectForkPath block = .ok (path, fork.hash))
    (hsplit : chain.blocks = keep ++ fork :: post) :
    ForkPoint chain block path keep fork post := by
  obtain ⟨found, forkHash, hfound, hpath⟩ := collectForkPath_spec h hparent
  rw [hcollected] at hfound
  obtain ⟨rfl, rfl⟩ := Prod.mk.inj (Except.ok.inj hfound)
  exact ⟨hcollected, hsplit, hpath⟩

theorem place_extended (htip : block.header.prevBlockhash = chain.tipHash) :
    chain.place block parent work =
      (.ok (.connected (parent.height + 1) block.hash), chain.extendTip block parent work) := by
  rw [place, if_pos htip]

theorem place_side (htip : block.header.prevBlockhash ≠ chain.tipHash)
    (hlighter : (parent.work.add work).le chain.totalWork) :
    chain.place block parent work =
      (.ok (.sideChain (parent.height + 1) block.hash), chain.storeSide block parent work) := by
  rw [place, if_neg htip, if_pos hlighter]

theorem place_reorganized (h : Indexed genesis chain) {path keep post : List Block} {fork : Block}
    {done : Chain} (hf : ForkPoint chain block path keep fork post)
    (htip : block.header.prevBlockhash ≠ chain.tipHash)
    (hheavier : ¬ (parent.work.add work).le chain.totalWork)
    (hconnects : ConnectsPath path (rewind post chain) done) :
    chain.place block parent work =
      (.ok (.reorganized chain.tipHash block.hash),
        ({ done with totalWork := parent.work.add work }).pushEvent
          (.chainReorg post.length chain.tipHash block.hash)) := by
  rw [place_reorg h hf htip hheavier, connectForkPath_ok_iff.mpr hconnects]
  simp only [hf.connects_tipHash hconnects]

theorem connectForkPath_valid {rest : List Block} (valid : ForkBlockValid chain block work) :
    connectForkPath (block :: rest) chain =
      connectForkPath rest (chain.pushForkBlock block work) := by
  rw [connectForkPath]
  simp only [valid.1, valid.2]
  rfl

theorem connectForkPath_invalid {rest : List Block} {e : Stop}
    (hinvalid : chain.validateBlockForParent block chain.blocks.getLast?
      (some block.header.prevBlockhash) (chain.height + 1) = .error e) :
    connectForkPath (block :: rest) chain = (.error e, chain) := by
  rw [connectForkPath]
  simp only [hinvalid]

/-! ## Checking an admission -/

/-- What an admission establishes, apart from the work of the block. -/
def Fits (chain : Chain) (block : Block) (parent : BlockMeta) : Prop :=
  validateBlockLimits block = .ok () ∧ chain.known.lookup block.hash = none ∧
    chain.orphans.lookup block.hash = none ∧
      chain.known.lookup block.header.prevBlockhash = some parent ∧
        chain.validateBlockForParent block (some parent.block)
          (some block.header.prevBlockhash) (parent.height + 1) = .ok ()

instance : Decidable (Fits chain block parent) := inferInstanceAs (Decidable (_ ∧ _ ∧ _ ∧ _ ∧ _))

theorem Fits.admitted (h : Fits chain block parent)
    (hwork : blockWork block.header.bits = .ok work) : Admitted chain block parent work :=
  ⟨h.1, h.2.1, h.2.2.1, h.2.2.2.1, h.2.2.2.2, hwork⟩

end Chain

end

end Bitrst
