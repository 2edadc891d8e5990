import Bitrst.BranchDifficulty
import Bitrst.ErrorAtomicity

/-!
# Where the demanded bits are evaluated

A call evaluates `expected_bits` for the delivered block and every promoted
orphan, on the chain as it is, and for the blocks of a fork path, on the chain
rewound below them.  On a fork path the height is always that of the next active
block.  For the block itself it is the height on its own branch, and at the end
of a period the assertion of `expected_bits` compares it with the active chain.
-/

namespace Bitrst

open Support

section

variable [Crypto] [Features]

namespace Chain

variable {genesis : Block} {chain : Chain}

/-! ## Evaluations -/

/-- One evaluation of `expected_bits`. -/
structure Evaluation where
  chain : Chain
  height : ℕ
  bits : UInt32

/-- Neither the debug assertion nor the index of a block stops the evaluation. -/
structure Evaluation.Safe (e : Evaluation) : Prop where
  asserted : e.height ≠ 0 → e.height % difficultyAdjustmentInterval = 0 →
    e.chain.blocks.length = e.height
  in_range : e.chain.expectedBits e.height e.bits ≠ .error .panic

/-- The checks of the header that come before its bits are compared. -/
def reachesBits (chain : Chain) (block : Block) (parent : Option Block)
    (parentHash : Option Hash256) : Bool :=
  meetsTarget block && block.headerMerkleRootMatches &&
    !(coinbaseCount block ≠ 1 || !firstIsCoinbase block) &&
      match parent, parentHash with
      | some _, some parentHash =>
          validBlockTime block.header.time (chain.medianPastTimeBefore parentHash)
            chain.networkTime
      | _, _ => true

/-- The evaluation that `validate_block_header_for_parent` makes, if it gets that far. -/
def headerEvaluations (chain : Chain) (block : Block) (parent : Option Block)
    (parentHash : Option Hash256) (height : ℕ) : List Evaluation :=
  if chain.reachesBits block parent parentHash then [⟨chain, height, block.header.bits⟩] else []

/-- The evaluations of `connect_fork_path`, block after block. -/
def pathEvaluations : List Block → Chain → List Evaluation
  | [], _ => []
  | block :: rest, chain =>
      chain.headerEvaluations block chain.blocks.getLast? (some block.header.prevBlockhash)
          (chain.height + 1) ++
        match connectForkPath [block] chain with
        | (.error _, _) => []
        | (.ok (), next) => pathEvaluations rest next

def reorgEvaluations (chain : Chain) (block : Block) : List Evaluation :=
  match chain.collectForkPath block with
  | .error _ => []
  | .ok (path, forkHash) =>
      match chain.findHeight forkHash with
      | none => []
      | some _ =>
          match disconnectLoop forkHash (chain.blocks.length + 2) 0 chain with
          | (.error _, _) => []
          | (.ok _, rewound) => pathEvaluations path rewound

/-- The evaluations of `connect_block_inner` for one block. -/
def blockEvaluations (chain : Chain) (block : Block) : List Evaluation :=
  match validateBlockLimits block with
  | .error _ => []
  | .ok () =>
      if (chain.known.lookup block.hash).isSome ∨ (chain.orphans.lookup block.hash).isSome then []
      else
        match chain.known.lookup block.header.prevBlockhash with
        | none => []
        | some parent =>
            chain.headerEvaluations block (some parent.block) (some block.header.prevBlockhash)
                (parent.height + 1) ++
              match chain.admission block with
              | .ok (some (parent, work)) =>
                  if block.header.prevBlockhash = chain.tipHash ∨
                      (parent.work.add work).le chain.totalWork then []
                  else chain.reorgEvaluations block
              | _ => []

/-- The evaluations of a call, promotions included. -/
def evaluations (order : OrphanOrder) (block : Block) (chain : Chain) : List Evaluation :=
  (activations order block chain).flatMap fun a ↦ a.1.blockEvaluations a.2

/-- A block that comes to have its bits compared at the end of a period is on
top of the active chain, as far as its height goes. -/
def InPlace (chain : Chain) (block : Block) : Prop :=
  ∀ parent, validateBlockLimits block = .ok () → chain.known.lookup block.hash = none →
    chain.orphans.lookup block.hash = none →
      chain.known.lookup block.header.prevBlockhash = some parent →
        chain.reachesBits block (some parent.block) (some block.header.prevBlockhash) →
          (parent.height + 1) % difficultyAdjustmentInterval = 0 →
            parent.height = chain.height

/-! ## The list is that of the code -/

/-- The bits are compared when the checks before pass. -/
theorem validateBlockHeaderForParent_reached {block : Block} {parent : Option Block}
    {parentHash : Option Hash256} {height : ℕ}
    (h : chain.reachesBits block parent parentHash = true) :
    chain.validateBlockHeaderForParent block parent parentHash height =
      match chain.expectedBits height block.header.bits with
      | .error e => .error e
      | .ok expectedBits =>
          if block.header.bits ≠ expectedBits then
            .error (.error (.unexpectedBits height expectedBits block.header.bits))
          else .ok () := by
  simp only [reachesBits, Bool.and_eq_true, Bool.not_eq_true'] at h
  obtain ⟨⟨⟨hpow, hmerkle⟩, hcoinbase⟩, htime⟩ := h
  unfold validateBlockHeaderForParent
  simp only [hpow, hmerkle, hcoinbase, Bool.not_true, Bool.false_eq_true, if_false]
  cases chain.expectedBits height block.header.bits <;> cases parent <;>
    cases parentHash <;> simp_all

/-- Otherwise an earlier check has failed, and none of these panics. -/
theorem validateBlockHeaderForParent_unreached {block : Block} {parent : Option Block}
    {parentHash : Option Hash256} {height : ℕ}
    (h : chain.reachesBits block parent parentHash = false) :
    ∃ e, chain.validateBlockHeaderForParent block parent parentHash height =
      .error (.error e) := by
  unfold validateBlockHeaderForParent
  unfold reachesBits at h
  split
  · exact ⟨_, rfl⟩
  split
  · exact ⟨_, rfl⟩
  split
  · exact ⟨_, rfl⟩
  cases parent <;> cases parentHash <;> simp_all

/-- The evaluation indexes a block that the active chain does not have. -/
def Evaluation.Panics (e : Evaluation) : Prop :=
  e.chain.expectedBits e.height e.bits = .error .panic

/-- The checks of a block panic only in the evaluation that is listed. -/
theorem headerEvaluations_panic {block : Block} {parent : Option Block}
    {parentHash : Option Hash256} {height : ℕ}
    (h : chain.validateBlockForParent block parent parentHash height = .error .panic) :
    ∃ e ∈ chain.headerEvaluations block parent parentHash height, e.Panics := by
  have hheader : chain.validateBlockHeaderForParent block parent parentHash height =
      .error .panic := by
    unfold validateBlockForParent at h
    split at h
    · rename_i stop hstop
      rw [hstop, Except.error.inj h]
    · split at h
      · cases h
      · cases h
  unfold headerEvaluations
  cases hreaches : chain.reachesBits block parent parentHash with
  | false =>
      obtain ⟨e, he⟩ := validateBlockHeaderForParent_unreached hreaches
      rw [hheader] at he
      cases he
  | true =>
      rw [validateBlockHeaderForParent_reached hreaches] at hheader
      refine ⟨_, List.mem_singleton_self _, ?_⟩
      unfold Evaluation.Panics
      revert hheader
      cases chain.expectedBits height block.header.bits with
      | error e => exact fun h ↦ congrArg Except.error (Except.error.inj h)
      | ok bits =>
          simp only
          split <;> exact fun h ↦ nomatch h

/-- A fork path panics in an evaluation of one of its blocks. -/
theorem pathEvaluations_panic {path : List Block}
    (h : (connectForkPath path chain).1 = .error .panic) :
    ∃ e ∈ pathEvaluations path chain, e.Panics := by
  induction path generalizing chain with
  | nil => cases h
  | cons block rest ih =>
      unfold pathEvaluations
      simp only [connectForkPath] at h ⊢
      cases hvalid : chain.validateBlockForParent block chain.blocks.getLast?
          (some block.header.prevBlockhash) (chain.height + 1) with
      | error stop =>
          rw [hvalid] at h
          rw [Except.error.inj h] at hvalid
          obtain ⟨e, he, hpanics⟩ := headerEvaluations_panic hvalid
          exact ⟨e, List.mem_append_left _ he, hpanics⟩
      | ok _ =>
          cases hwork : blockWork block.header.bits with
          | error failure =>
              rw [hvalid, hwork] at h
              cases h
          | ok work =>
              rw [hvalid, hwork] at h
              obtain ⟨e, he, hpanics⟩ := ih h
              exact ⟨e, List.mem_append_right _ he, hpanics⟩

theorem reorgEvaluations_eq (h : Indexed genesis chain) {block : Block}
    {path keep post : List Block} {fork : Block} (hf : ForkPoint chain block path keep fork post) :
    chain.reorgEvaluations block = pathEvaluations path (rewind post chain) := by
  have hloop := disconnectLoop_eq h hf.split
    (show post.length < chain.blocks.length + 2 by rw [hf.split]; simp; omega) 0
  have hmem : fork ∈ chain.blocks := by
    rw [hf.split]
    simp
  obtain ⟨entry, hentry, -⟩ := h.mem_active_known hmem
  unfold reorgEvaluations
  rw [hf.collected]
  simp only [hloop, findHeight, hentry, Option.map_some]

/-- A block is only refused with a panic where its header is checked. -/
theorem admission_panic {block : Block} (h : chain.admission block = .error .panic) :
    validateBlockLimits block = .ok () ∧
      ¬ ((chain.known.lookup block.hash).isSome ∨ (chain.orphans.lookup block.hash).isSome) ∧
      ∃ parent, chain.known.lookup block.header.prevBlockhash = some parent ∧
        chain.validateBlockForParent block (some parent.block) (some block.header.prevBlockhash)
          (parent.height + 1) = .error .panic := by
  unfold admission at h
  split at h
  · cases h
  · rename_i hlimits
    split at h
    · cases h
    · rename_i hnew
      split at h
      · cases h
      · rename_i parent hparent
        split at h
        · rename_i stop hinvalid
          rw [Except.error.inj h] at hinvalid
          exact ⟨hlimits, hnew, parent, hparent, hinvalid⟩
        · split at h <;> cases h

/-- Connecting a block panics in one of its evaluations. -/
theorem blockEvaluations_panic (h : Indexed genesis chain) (order : OrphanOrder) {block : Block}
    (hpanic : (connectAlone order block chain).1 = .error .panic) :
    ∃ e ∈ chain.blockEvaluations block, e.Panics := by
  rw [connectAlone_eq] at hpanic
  unfold blockEvaluations
  cases hadm : chain.admission block with
  | error stop =>
      rw [hadm] at hpanic
      obtain rfl := Except.error.inj hpanic
      obtain ⟨hlimits, hnew, parent, hparent, hinvalid⟩ := admission_panic hadm
      obtain ⟨e, he, hpanics⟩ := headerEvaluations_panic hinvalid
      simp only [hlimits, if_neg hnew, hparent]
      exact ⟨e, List.mem_append_left _ he, hpanics⟩
  | ok found =>
      rw [hadm] at hpanic
      cases found with
      | none => cases hpanic
      | some pair =>
          obtain ⟨parent, work⟩ := pair
          have hadmitted := admission_some_iff.mp hadm
          have hplace := place_placement h hadmitted
          simp only at hpanic
          generalize chain.place block parent work = outcome at hplace hpanic
          cases hplace with
          | extended _ => cases hpanic
          | side _ _ => cases hpanic
          | reorganized _ _ _ _ => cases hpanic
          | failed stop _ tip heavier forks fails _ _ =>
              rw [Except.error.inj hpanic] at fails
              obtain ⟨e, he, hpanics⟩ := pathEvaluations_panic fails
              have hfresh : ¬ ((chain.known.lookup block.hash).isSome ∨
                  (chain.orphans.lookup block.hash).isSome) := by
                simp [hadmitted.unknown, hadmitted.not_orphan]
              have hneither : ¬ (block.header.prevBlockhash = chain.tipHash ∨
                  (parent.work.add work).le chain.totalWork) := by
                simp [tip, heavier]
              rw [hadmitted.limits]
              simp only [if_neg hfresh, hadmitted.parent_known, if_neg hneither,
                reorgEvaluations_eq h forks]
              exact ⟨e, List.mem_append_right _ he, hpanics⟩

/-- Every panic of a call comes from an evaluation that is listed. -/
theorem connectBlock_panic (h : Coherent genesis chain) (order : OrphanOrder) {block : Block}
    (hpanic : (connectBlock order block chain).1 = .error .panic) :
    ∃ e ∈ evaluations order block chain, e.Panics := by
  obtain ⟨a, ha, hstopped⟩ := (connectBlock_stop_iff order block chain (by rintro ⟨⟩)).mp hpanic
  obtain ⟨e, he, hpanics⟩ :=
    blockEvaluations_panic (activations_coherent h order block a ha).indexed order hstopped
  exact ⟨e, List.mem_flatMap.mpr ⟨a, ha, he⟩, hpanics⟩

omit [Features] in
theorem Bare.reachesBits {block : Block} (h : Bare block) {parent : Block} {hash : Hash256}
    (htime : validBlockTime block.header.time (chain.medianPastTimeBefore hash)
      chain.networkTime = true) :
    chain.reachesBits block (some parent) (some hash) = true := by
  unfold Chain.reachesBits
  simp [h.pow, h.merkle, h.coinbaseCount_eq, h.firstIsCoinbase, htime]

/-! ## Safe evaluations -/

omit [Crypto] in
/-- At the next height of the active chain no index is out of range. -/
theorem Evaluation.safe_iff (e : Evaluation) :
    e.Safe ↔ (e.height ≠ 0 → e.height % difficultyAdjustmentInterval = 0 →
      e.chain.blocks.length = e.height) := by
  refine ⟨Safe.asserted, fun h ↦ ⟨h, ?_⟩⟩
  unfold expectedBits
  by_cases hzero : e.height = 0
  · rw [if_pos hzero]
    simp
  · rw [if_neg hzero]
    by_cases hperiod : e.height % difficultyAdjustmentInterval = 0
    · have hlength := h hzero hperiod
      have hpos := difficultyAdjustmentInterval_pos
      rw [if_neg (not_not.mpr hperiod)]
      simp only
      rw [hlength, if_neg (by omega), List.getElem?_eq_getElem (by omega),
        List.getElem?_eq_getElem (by omega)]
      simp only
      split <;> simp
    · rw [if_pos hperiod]
      split <;> simp

omit [Features] in
theorem mem_headerEvaluations {block : Block} {parent : Option Block} {parentHash : Option Hash256}
    {height : ℕ} {e : Evaluation} :
    e ∈ chain.headerEvaluations block parent parentHash height ↔
      chain.reachesBits block parent parentHash ∧ e = ⟨chain, height, block.header.bits⟩ := by
  unfold headerEvaluations
  split <;> simp_all

/-- On a fork path every block has the height of the next active block. -/
theorem pathEvaluations_safe {path : List Block} (hblocks : chain.blocks ≠ []) :
    ∀ e ∈ pathEvaluations path chain, e.Safe := by
  induction path generalizing chain with
  | nil => exact fun e he ↦ by cases he
  | cons block rest ih =>
      intro e he
      rcases List.mem_append.mp he with he | he
      · obtain ⟨-, rfl⟩ := mem_headerEvaluations.mp he
        apply (Evaluation.safe_iff _).mpr
        intro _ _
        exact (Nat.succ_pred_eq_of_pos (List.length_pos_iff.mpr hblocks)).symm
      · cases hnext : connectForkPath [block] chain with
        | mk result next =>
            rw [hnext] at he
            cases result with
            | error stop => cases he
            | ok _ =>
                have hconnects := connectForkPath_ok_iff.mp hnext
                apply ih ?_ e he
                rw [hconnects.blocks_eq]
                simp

theorem reorgEvaluations_safe (h : Indexed genesis chain) {block : Block} {parent : BlockMeta}
    (hparent : chain.known.lookup block.header.prevBlockhash = some parent) :
    ∀ e ∈ chain.reorgEvaluations block, e.Safe := by
  obtain ⟨path, keep, fork, post, hf⟩ := h.exists_forkPoint hparent
  rw [reorgEvaluations_eq h hf]
  exact pathEvaluations_safe (hf.rewind_indexed h).blocks_ne_nil

/-- For one block: everything is safe exactly when the block is in place. -/
theorem blockEvaluations_safe_iff (h : Indexed genesis chain) (block : Block) :
    (∀ e ∈ chain.blockEvaluations block, e.Safe) ↔ InPlace chain block := by
  have hheight : chain.height + 1 = chain.blocks.length := PathReady.height_add_one h
  unfold blockEvaluations InPlace
  cases hlimits : validateBlockLimits block with
  | error e => simp
  | ok _ =>
      simp only
      split
      · rename_i hold
        refine ⟨fun _ parent _ hknown horphan ↦ ?_, fun _ e he ↦ by cases he⟩
        rw [hknown, horphan] at hold
        simp at hold
      · rename_i hnew
        simp only [Option.not_isSome_iff_eq_none, not_or] at hnew
        cases hparent : chain.known.lookup block.header.prevBlockhash with
        | none => simp
        | some parent =>
            simp only [Option.some.injEq, forall_eq', hnew.1, hnew.2, forall_const]
            constructor
            · intro hsafe hreaches hperiod
              have he := hsafe _ (List.mem_append_left _
                (mem_headerEvaluations.mpr ⟨hreaches, rfl⟩))
              have hlength := he.asserted (Nat.succ_ne_zero _) hperiod
              simp only at hlength
              omega
            · intro hplace e he
              rcases List.mem_append.mp he with he | he
              · obtain ⟨hreaches, rfl⟩ := mem_headerEvaluations.mp he
                apply (Evaluation.safe_iff _).mpr
                intro _ hperiod
                have := hplace hreaches hperiod
                simp only
                omega
              · split at he
                · split at he
                  · cases he
                  · exact reorgEvaluations_safe h hparent e he
                · cases he

/-- In every reachable state, every evaluation of a call is safe exactly when each block that the
call tries to connect is in place. -/
theorem evaluations_safe_iff (h : Reachable genesis chain) (order : OrphanOrder) (block : Block) :
    (∀ e ∈ evaluations order block chain, e.Safe) ↔
      ∀ a ∈ activations order block chain, InPlace a.1 a.2 := by
  have hcoherent := activations_coherent (ReachableWith.coherent h) order block
  unfold evaluations
  constructor
  · intro hsafe a ha
    apply (blockEvaluations_safe_iff (hcoherent a ha).indexed a.2).mp
    exact fun e he ↦ hsafe e (List.mem_flatMap.mpr ⟨a, ha, he⟩)
  · intro hplace e he
    obtain ⟨a, ha, he⟩ := List.mem_flatMap.mp he
    exact (blockEvaluations_safe_iff (hcoherent a ha).indexed a.2).mpr (hplace a ha) e he

/-- Where every block is in place, a call does not panic. -/
theorem connectBlock_not_panic (h : Reachable genesis chain) (order : OrphanOrder) {block : Block}
    (hplace : ∀ a ∈ activations order block chain, InPlace a.1 a.2) :
    (connectBlock order block chain).1 ≠ .error .panic := by
  intro hpanic
  have hcoherent := ReachableWith.coherent h
  obtain ⟨e, he, hpanics⟩ := connectBlock_panic hcoherent order hpanic
  obtain ⟨a, ha, he⟩ := List.mem_flatMap.mp he
  have hindexed := (activations_coherent hcoherent order block a ha).indexed
  exact ((blockEvaluations_safe_iff hindexed a.2).mpr (hplace a ha) e he).in_range hpanics

end Chain

end

end Bitrst

namespace Bitrst.Sample

open Support

section ShortPeriod

local instance shortPeriodAssertion : Features where
  testShortPeriod := true

theorem capped_apart : (genesis.hash ≠ capped.hash ∧ genesis.hash ≠ sibling.hash) ∧
    (prompt.hash ≠ capped.hash ∧ prompt.hash ≠ sibling.hash) ∧ capped.hash ≠ sibling.hash ∧
    Chain.meetsTarget capped = true ∧ Chain.meetsTarget sibling = true := by
  decide +kernel

theorem capped_bare : Chain.Bare capped := bare_coin rfl rfl capped_apart.2.2.2.1

theorem sibling_bare : Chain.Bare sibling := bare_bare capped_apart.2.2.2.2

/-- All the blocks up to the end of the period come before `capped`, and have other hashes. -/
theorem ended_before_capped {ended : Chain}
    (h : Chain.Extension opened (approach ++ [prompt]) ended) {b : Block} (hb : b ∈ ended.blocks) :
    b.header.time < capped.header.time ∧ b.hash ≠ capped.hash ∧ b.hash ≠ sibling.hash := by
  obtain ⟨hgenesis, hprompt, -⟩ := capped_apart
  rw [ended_blocks h] at hb
  rcases List.mem_cons.mp hb with rfl | hb
  · exact ⟨by decide, hgenesis⟩
  · rcases List.mem_append.mp hb with hb | hb
    · have hcapped := approach_apart hb (show capped.hash ∈ otherHashes by simp [otherHashes])
      have hsibling := approach_apart hb (show sibling.hash ∈ otherHashes by simp [otherHashes])
      obtain ⟨below, at', nonce, rfl, -, hlt⟩ := mem_approach hb
      have hless : (bare below at' nonce).header.time < (bare zeroHash 1258 0).header.time :=
        lt_time (by omega) (by decide)
      exact ⟨hless, hcapped, hsibling⟩
    · rw [List.mem_singleton.mp hb]
      exact ⟨by decide, hprompt⟩

theorem ended_prompt {ended : Chain} (h : Chain.Extension opened (approach ++ [prompt]) ended) :
    ∃ parent, ended.known.lookup prompt.hash = some parent ∧ parent.height = 255 := by
  have hindexed := (Chain.ReachableWith.coherent (ended_reachable h)).indexed
  obtain ⟨keep, tip, parent, hblocks, htip, hparent, -, hheight⟩ := hindexed.exists_tip
  rw [ended_tipHash h] at htip
  rw [← htip] at hparent
  refine ⟨parent, hparent, ?_⟩
  have hlength := ended_length h
  rw [hblocks, List.length_append, List.length_singleton] at hlength
  omega

theorem blockWork_maxCompactBits : ∃ work, blockWork maxCompactBits = .ok work := by
  have hok : (blockWork maxCompactBits).isOk = true := by decide +kernel
  cases hwork : blockWork maxCompactBits with
  | ok work => exact ⟨work, rfl⟩
  | error e =>
      rw [hwork] at hok
      cases hok

theorem capped_admitted {ended : Chain}
    (h : Chain.Extension opened (approach ++ [prompt]) ended) :
    ∃ parent work, Chain.Admitted ended capped parent work := by
  have hindexed := (Chain.ReachableWith.coherent (ended_reachable h)).indexed
  have hfree := h.forkFree opened_forkFree
  have hnetwork : ended.networkTime = 5000000 := h.networkTime_eq
  obtain ⟨parent, hparent, hheight⟩ := ended_prompt h
  obtain ⟨work, hwork⟩ := blockWork_maxCompactBits
  refine ⟨parent, work, capped_bare.admitted
    (unknown_of_apart hfree hindexed fun b hb ↦ (ended_before_capped h hb).2.1)
    (by rw [ended_orphans h]; rfl) hparent
    (validBlockTime_of_before hfree hparent (fun b hb ↦ (ended_before_capped h hb).1)
      (by rw [hnetwork]; decide)) ?_ hwork⟩
  rw [hheight]
  exact ended_demands_cap h _

/-- On top of the ended period the bits of `capped` are evaluated at the end of a period, and
everything is safe. -/
theorem capped_evaluations_safe : ∃ chain, Chain.Reachable genesis chain ∧
    ⟨chain, 256, maxCompactBits⟩ ∈ Chain.evaluations order capped chain ∧
      ∀ e ∈ Chain.evaluations order capped chain, e.Safe := by
  have hstart := (Chain.ReachableWith.coherent opened_reachable).indexed
  obtain ⟨ended, h⟩ := prolongs.exists_extension hstart opened_forkFree rfl blockWork_easyBits
  have hreachable := ended_reachable h
  have hindexed := (Chain.ReachableWith.coherent hreachable).indexed
  obtain ⟨below, work, hadmitted⟩ := capped_admitted h
  obtain ⟨parent, hparent, hheight⟩ := ended_prompt h
  have hone := Chain.activations_eq_singleton hindexed (ended_orphans h) order hadmitted
  refine ⟨ended, hreachable, ?_, (Chain.evaluations_safe_iff hreachable order capped).mpr ?_⟩
  · have hreaches : ended.reachesBits capped (some parent.block)
        (some capped.header.prevBlockhash) = true := by
      apply capped_bare.reachesBits
      refine validBlockTime_of_before (h.forkFree opened_forkFree) hparent
        (fun b hb ↦ (ended_before_capped h hb).1) ?_
      rw [h.networkTime_eq]
      decide
    have hprev : ended.known.lookup capped.header.prevBlockhash = some parent := hparent
    have hfresh : ¬ ((ended.known.lookup capped.hash).isSome ∨
        (ended.orphans.lookup capped.hash).isSome) := by
      simp [hadmitted.unknown, hadmitted.not_orphan]
    have hlisted : ⟨ended, 256, maxCompactBits⟩ ∈ ended.blockEvaluations capped := by
      unfold Chain.blockEvaluations
      rw [capped_bare.limits]
      simp only [if_neg hfresh, hprev]
      apply List.mem_append_left
      exact Chain.mem_headerEvaluations.mpr ⟨hreaches, by rw [hheight]; rfl⟩
    exact List.mem_flatMap.mpr ⟨(ended, capped), hone ▸ List.mem_singleton_self _, hlisted⟩
  · intro a ha found _ _ _ hfound _ _
    rw [hone, List.mem_singleton] at ha
    subst ha
    have hprev : ended.known.lookup capped.header.prevBlockhash = some parent := hparent
    obtain rfl := Option.some.inj (hfound.symm.trans hprev)
    rw [hheight, Chain.height, ended_length h]

/-- The next block of the period is on top of the chain, and its sibling breaks the assertion. -/
theorem sibling_breaks_assertion : ∃ chain, Chain.Reachable genesis chain ∧
    ∃ e ∈ Chain.evaluations order sibling chain, ¬ e.Safe := by
  have hstart := (Chain.ReachableWith.coherent opened_reachable).indexed
  obtain ⟨ended, h⟩ := prolongs.exists_extension hstart opened_forkFree rfl blockWork_easyBits
  obtain ⟨below, work, hadmitted⟩ := capped_admitted h
  have hnext : Chain.Extension ended [capped] (ended.extendTip capped below work) :=
    .cons hadmitted (ended_tipHash h).symm (.nil _)
  have hreachable := hnext.reachable order (ended_orphans h) (ended_reachable h)
  have hindexed := (Chain.ReachableWith.coherent hreachable).indexed
  have hfree := hnext.forkFree (h.forkFree opened_forkFree)
  have hnetwork : (ended.extendTip capped below work).networkTime = 5000000 := h.networkTime_eq
  have hbefore : ∀ b ∈ (ended.extendTip capped below work).blocks,
      b.header.time < sibling.header.time ∧ b.hash ≠ sibling.hash := by
    intro b hb
    rw [hnext.blocks_eq] at hb
    rcases List.mem_append.mp hb with hb | hb
    · obtain ⟨htime, -, hne⟩ := ended_before_capped h hb
      exact ⟨UInt32.lt_trans htime (by decide), hne⟩
    · rw [List.mem_singleton.mp hb]
      exact ⟨by decide, capped_apart.2.2.1⟩
  obtain ⟨parent, hparent, hheight⟩ := ended_prompt h
  have hne : prompt.hash ≠ capped.hash := capped_apart.2.1.1
  have hparent' : (ended.extendTip capped below work).known.lookup prompt.hash = some parent :=
    (Chain.pushTip_known _ _ _ _ _).trans ((if_neg hne).trans hparent)
  have hplace : ¬ Chain.InPlace (ended.extendTip capped below work) sibling := by
    intro hplace
    have hlength : (ended.extendTip capped below work).blocks.length = 257 := by
      rw [hnext.blocks_eq, ended_blocks h, List.length_append, List.length_cons,
        List.length_append, approach_length]
      rfl
    have htip := hplace parent sibling_bare.limits
      (unknown_of_apart hfree hindexed fun b hb ↦ (hbefore b hb).2)
      (by rw [hnext.orphans_eq, ended_orphans h]; rfl) hparent' ?_ (by rw [hheight]; decide)
    · rw [hheight, Chain.height, hlength] at htip
      cases htip
    · apply sibling_bare.reachesBits
      exact validBlockTime_of_before hfree hparent' (fun b hb ↦ (hbefore b hb).1)
        (by rw [hnetwork]; decide)
  rw [← Chain.blockEvaluations_safe_iff hindexed sibling] at hplace
  push Not at hplace
  obtain ⟨e, he, hunsafe⟩ := hplace
  exact ⟨_, hreachable, e, List.mem_flatMap.mpr ⟨_, List.mem_cons_self, he⟩, hunsafe⟩

end ShortPeriod

end Bitrst.Sample
