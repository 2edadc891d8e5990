import Bitrst.ChainCoherence

/-!
# Runs that only extend the tip

An `Extension` admits blocks one after the other, each on top of the last.
Inside a difficulty period it goes on for as long as there are blocks with
enough work that carry nothing but a coinbase.
-/

namespace Bitrst

open Support

variable [Crypto] [Features]

namespace Chain

variable {genesis : Block} {chain done : Chain} {block : Block} {bs : List Block}

/-- The delivery of one block that goes to a side branch. -/
theorem deliverAll_side (h : Indexed genesis chain) (hnone : chain.orphans = ∅)
    (order : OrphanOrder) {parent : BlockMeta} {work : ChainWork}
    (hadm : Admitted chain block parent work)
    (htip : block.header.prevBlockhash ≠ chain.tipHash)
    (hlighter : (parent.work.add work).le chain.totalWork) :
    deliverAll [(order, block)] chain = chain.storeSide block parent work := by
  rw [deliverAll, connectBlock_eq_place h hnone order hadm, place_side htip hlighter]
  rfl

/-- The blocks are admitted and extend the tip, one after the other. -/
inductive Extension : Chain → List Block → Chain → Prop
  | nil (chain : Chain) : Extension chain [] chain
  | cons {chain done : Chain} {block : Block} {parent : BlockMeta} {work : ChainWork}
      {bs : List Block} (admitted : Admitted chain block parent work)
      (tip : block.header.prevBlockhash = chain.tipHash)
      (rest : Extension (chain.extendTip block parent work) bs done) :
      Extension chain (block :: bs) done

theorem Extension.blocks_eq (h : Extension chain bs done) : done.blocks = chain.blocks ++ bs := by
  induction h with
  | nil => simp
  | cons _ _ _ ih => rw [ih, extendTip, pushTip_blocks, List.append_assoc, List.singleton_append]

theorem Extension.orphans_eq (h : Extension chain bs done) : done.orphans = chain.orphans := by
  induction h with
  | nil => rfl
  | cons _ _ _ ih => exact ih

theorem Extension.networkTime_eq (h : Extension chain bs done) :
    done.networkTime = chain.networkTime := by
  induction h with
  | nil => rfl
  | cons _ _ _ ih => exact ih

theorem Extension.indexed (h : Extension chain bs done) (hindexed : Indexed genesis chain) :
    Indexed genesis done := by
  induction h with
  | nil => exact hindexed
  | cons admitted tip _ ih => exact ih (extendTip_indexed hindexed admitted tip)

/-- A run without orphans goes on with an extension. -/
theorem Extension.reachable (h : Extension chain bs done) (order : OrphanOrder)
    (hnone : chain.orphans = ∅) (hrun : Reachable genesis chain) : Reachable genesis done := by
  induction h with
  | nil => exact hrun
  | @cons chain done block parent work bs admitted tip _ ih =>
      have hnext := ReachableWith.place order hrun (ReachableWith.coherent hrun).indexed hnone
        admitted (by rw [place_extended tip]; simp [Returned]) trivial
      rw [place_extended tip] at hnext
      exact ih hnone hnext

/-- An extension is what delivering the blocks leads to. -/
theorem Extension.deliverAll_eq (h : Extension chain bs done) (hindexed : Indexed genesis chain)
    (hnone : chain.orphans = ∅) (order : OrphanOrder) :
    deliverAll (bs.map (order, ·)) chain = done := by
  induction h with
  | nil => rfl
  | cons admitted tip _ ih =>
      rw [List.map_cons, deliverAll_cons, connectBlock_eq_place hindexed hnone order admitted,
        place_extended tip]
      exact ih (extendTip_indexed hindexed admitted tip) hnone

theorem Extension.concat (h : Extension chain (bs ++ [block]) done) :
    ∃ before parent work, Extension chain bs before ∧ Admitted before block parent work ∧
      block.header.prevBlockhash = before.tipHash ∧ done = before.extendTip block parent work := by
  induction bs generalizing chain with
  | nil =>
      cases h with
      | cons admitted tip rest =>
          cases rest
          exact ⟨chain, _, _, .nil chain, admitted, tip, rfl⟩
  | cons b bs ih =>
      cases h with
      | cons admitted tip rest =>
          obtain ⟨before, parent, work, hbefore, hrest⟩ := ih rest
          exact ⟨before, parent, work, .cons admitted tip hbefore, hrest⟩

omit [Features] in
/-- A block on the last of a linked list is linked to it. -/
theorem LinkedAbove.concat {below : Hash256} (h : LinkedAbove below bs)
    (hprev : block.header.prevBlockhash = (bs.getLast?.map Block.hash).getD below) :
    LinkedAbove below (bs ++ [block]) := by
  induction bs generalizing below with
  | nil => exact ⟨hprev, trivial⟩
  | cons b bs ih =>
      refine ⟨h.1, ih h.2 ?_⟩
      rw [hprev, List.getLast?_cons]
      cases bs.getLast? <;> rfl

/-! ## Chains that know no other branch -/

/-- Every known block is active. -/
def ForkFree (chain : Chain) : Prop :=
  ∀ hash entry, chain.known.lookup hash = some entry → entry.block ∈ chain.blocks

omit [Features] in
theorem ForkFree.extendTip (h : ForkFree chain) (parent : BlockMeta) (work : ChainWork) :
    ForkFree (chain.extendTip block parent work) := by
  intro hash entry hentry
  change (chain.pushTip block (parent.height + 1) (parent.work.add work)).known.lookup hash =
    some entry at hentry
  change entry.block ∈ chain.blocks ++ [block]
  rw [pushTip_known] at hentry
  split at hentry
  · obtain rfl := Option.some.inj hentry
    simp
  · exact List.mem_append_left _ (h hash entry hentry)

omit [Features] in
theorem ForkFree.mem_active (hfree : ForkFree chain) (h : Indexed genesis chain)
    {hash : Hash256} {entry : BlockMeta} (hentry : chain.known.lookup hash = some entry) :
    ∃ b ∈ chain.blocks, b.hash = hash :=
  ⟨entry.block, hfree hash entry hentry, h.known_hash hash entry hentry⟩

theorem Extension.forkFree (h : Extension chain bs done) (hfree : ForkFree chain) :
    ForkFree done := by
  induction h with
  | nil => exact hfree
  | cons _ _ _ ih => exact ih (hfree.extendTip _ _)

/-! ## What a header is checked against -/

omit [Crypto] in
theorem difficultyAdjustmentInterval_pos : 0 < difficultyAdjustmentInterval := by
  unfold difficultyAdjustmentInterval difficultyAdjustmentIntervalMainnet
  split <;> decide

omit [Crypto] in
/-- Away from the ends of periods the tip's bits are demanded. -/
theorem expectedBits_of_not_dvd {height : ℕ} (bits : UInt32) {tip : Block}
    (hheight : height % difficultyAdjustmentInterval ≠ 0)
    (htip : chain.blocks.getLast? = some tip) :
    chain.expectedBits height bits = .ok tip.header.bits := by
  have hne : height ≠ 0 := by
    rintro rfl
    exact hheight (Nat.zero_mod _)
  rw [expectedBits, if_neg hne, if_pos hheight, htip]

omit [Crypto] [Features] in
/-- The times collected are those of known blocks. -/
theorem mem_pastTimes {n : ℕ} {hash : Hash256} {time : UInt32}
    (h : time ∈ chain.pastTimes n hash) :
    ∃ key entry, chain.known.lookup key = some entry ∧ entry.block.header.time = time := by
  induction n generalizing hash with
  | zero => cases h
  | succ n ih =>
      unfold pastTimes at h
      split at h
      · cases h
      · rename_i entry hentry
        rcases List.mem_cons.mp h with rfl | h
        · exact ⟨hash, entry, hentry, rfl⟩
        · exact ih h

omit [Crypto] [Features] in
/-- The median of the times before a known block is one of them. -/
theorem medianPastTimeBefore_mem {hash : Hash256} {parent : BlockMeta}
    (hparent : chain.known.lookup hash = some parent) :
    chain.medianPastTimeBefore hash ∈ chain.pastTimes 11 hash := by
  have hpos : 0 < (chain.pastTimes 11 hash).length := by
    unfold pastTimes
    rw [hparent]
    exact Nat.succ_pos _
  have hlt : (chain.pastTimes 11 hash).length / 2 <
      ((chain.pastTimes 11 hash).insertionSort (· ≤ ·)).length := by
    rw [List.length_insertionSort]
    omega
  unfold medianPastTimeBefore
  simp only
  rw [List.getD_eq_getElem?_getD, List.getElem?_eq_getElem hlt]
  exact (List.mem_insertionSort _).mp (List.getElem_mem hlt)

/-! ## Blocks with nothing but a coinbase -/

/-- A block of one coinbase transaction whose checks do not depend on the chain. -/
structure Bare (block : Block) : Prop where
  coinbase : ∃ tx sum, block.transactions = [tx] ∧ tx.isCoinbase = true ∧
    UtxoSet.outputSum tx = .ok sum
  limits : validateBlockLimits block = .ok ()
  pow : meetsTarget block = true
  merkle : block.headerMerkleRootMatches = true

namespace Bare

omit [Features] in
theorem transactions_ok (h : Bare block) (utxo : UtxoSet) :
    validateBlockTransactionsForUtxo block utxo = .ok () := by
  obtain ⟨tx, sum, htxs, hcoinbase, hsum⟩ := h.coinbase
  have hvalid : utxo.validateTransaction tx = .ok () := by
    unfold UtxoSet.validateTransaction
    rw [if_pos hcoinbase, hsum]
    rfl
  simp only [validateBlockTransactionsForUtxo, htxs, validateBlockTransactionsLoop,
    validateBlockTransaction, hcoinbase, hvalid, if_true]

omit [Features] in
theorem coinbaseCount_eq (h : Bare block) : coinbaseCount block = 1 := by
  obtain ⟨tx, sum, htxs, hcoinbase, -⟩ := h.coinbase
  simp [coinbaseCount, htxs, hcoinbase]

omit [Features] in
theorem firstIsCoinbase (h : Bare block) : firstIsCoinbase block = true := by
  obtain ⟨tx, sum, htxs, hcoinbase, -⟩ := h.coinbase
  simp [Chain.firstIsCoinbase, htxs, hcoinbase]

/-- It is admitted on a known block when its time and bits are right. -/
theorem admitted (h : Bare block) {parent : BlockMeta} {work : ChainWork}
    (hunknown : chain.known.lookup block.hash = none)
    (horphan : chain.orphans.lookup block.hash = none)
    (hparent : chain.known.lookup block.header.prevBlockhash = some parent)
    (htime : validBlockTime block.header.time
      (chain.medianPastTimeBefore block.header.prevBlockhash) chain.networkTime = true)
    (hbits : chain.expectedBits (parent.height + 1) block.header.bits = .ok block.header.bits)
    (hwork : blockWork block.header.bits = .ok work) : Admitted chain block parent work where
  limits := h.limits
  unknown := hunknown
  not_orphan := horphan
  parent_known := hparent
  valid := by
    simp [validateBlockForParent, validateBlockHeaderForParent, h.pow, h.merkle,
      h.coinbaseCount_eq, h.firstIsCoinbase, htime, hbits, h.transactions_ok]
  block_work := hwork

end Bare

/-- Blocks with nothing but a coinbase that can be connected one after the
other before the difficulty period ends. -/
structure Prolongs (chain : Chain) (bits : UInt32) (bs : List Block) : Prop where
  linked : LinkedAbove chain.tipHash bs
  bare : ∀ b ∈ bs, Bare b
  tip_bits : ∀ tip ∈ chain.blocks.getLast?, tip.header.bits = bits
  bits : ∀ b ∈ bs, b.header.bits = bits
  time_le : ∀ b ∈ bs, b.header.time ≤ chain.networkTime
  times : (chain.blocks ++ bs).Pairwise fun b b' ↦ b.header.time < b'.header.time
  hashes : (chain.blocks ++ bs).Pairwise fun b b' ↦ b.hash ≠ b'.hash
  short : chain.blocks.length + bs.length ≤ difficultyAdjustmentInterval

namespace Prolongs

variable {bits : UInt32} {work : ChainWork}

theorem admitted (h : Prolongs chain bits (block :: bs)) (hindexed : Indexed genesis chain)
    (hfree : ForkFree chain) (hnone : chain.orphans = ∅) (hwork : blockWork bits = .ok work) :
    ∃ parent, Admitted chain block parent work := by
  obtain ⟨keep, tip, parent, hblocks, htipHash, hparent, -, hheight⟩ := hindexed.exists_tip
  have hlast : chain.blocks.getLast? = some tip := by simp [hblocks]
  have hprev : block.header.prevBlockhash = tip.hash := h.linked.1.trans htipHash
  have hblockBits := h.bits block List.mem_cons_self
  have hheights : parent.height + 1 = chain.blocks.length := by simp [hheight, hblocks]
  have hlater : ∀ b ∈ chain.blocks, b.header.time < block.header.time := fun b hb ↦
    (List.pairwise_append.mp h.times).2.2 b hb block List.mem_cons_self
  rw [← hprev] at hparent
  refine ⟨parent, (h.bare block List.mem_cons_self).admitted ?_ (by rw [hnone]; rfl) hparent ?_ ?_
    (hblockBits ▸ hwork)⟩
  · by_contra hknown
    obtain ⟨entry, hentry⟩ := Option.ne_none_iff_exists'.mp hknown
    obtain ⟨b, hb, hhash⟩ := hfree.mem_active hindexed hentry
    exact (List.pairwise_append.mp h.hashes).2.2 b hb block List.mem_cons_self hhash
  · obtain ⟨key, entry, hentry, htime⟩ := mem_pastTimes (medianPastTimeBefore_mem hparent)
    have hless := hlater entry.block (hfree key entry hentry)
    rw [htime] at hless
    have hnetwork := h.time_le block List.mem_cons_self
    simp only [validBlockTime, Bool.and_eq_true, decide_eq_true_eq]
    exact ⟨hless, le_saturatingAddU32 hnetwork⟩
  · have hnot : (parent.height + 1) % difficultyAdjustmentInterval ≠ 0 := by
      have hshort := h.short
      rw [List.length_cons] at hshort
      rw [hheights, Nat.mod_eq_of_lt (by omega)]
      omega
    rw [expectedBits_of_not_dvd _ hnot hlast, hblockBits, h.tip_bits tip (by rw [hlast]; rfl)]

theorem tail (h : Prolongs chain bits (block :: bs)) (parent : BlockMeta) (work : ChainWork) :
    Prolongs (chain.extendTip block parent work) bits bs where
  linked := by
    have htip : (chain.extendTip block parent work).tipHash = block.hash :=
      tipHash_of_append chain.blocks rfl
    rw [htip]
    exact h.linked.2
  bare := fun b hb ↦ h.bare b (List.mem_cons_of_mem _ hb)
  tip_bits := by
    intro tip htip
    have hlast : (chain.extendTip block parent work).blocks.getLast? = some block :=
      List.getLast?_concat
    rw [hlast] at htip
    obtain rfl := Option.some.inj htip
    exact h.bits _ List.mem_cons_self
  bits := fun b hb ↦ h.bits b (List.mem_cons_of_mem _ hb)
  time_le := fun b hb ↦ h.time_le b (List.mem_cons_of_mem _ hb)
  times := by
    change ((chain.blocks ++ [block]) ++ bs).Pairwise _
    rw [List.append_assoc]
    exact h.times
  hashes := by
    change ((chain.blocks ++ [block]) ++ bs).Pairwise _
    rw [List.append_assoc]
    exact h.hashes
  short := by
    have hshort := h.short
    change (chain.blocks ++ [block]).length + bs.length ≤ _
    rw [List.length_append, List.length_singleton]
    rw [List.length_cons] at hshort
    omega

/-- Such blocks are all connected. -/
theorem exists_extension (h : Prolongs chain bits bs) (hindexed : Indexed genesis chain)
    (hfree : ForkFree chain) (hnone : chain.orphans = ∅) (hwork : blockWork bits = .ok work) :
    ∃ done, Extension chain bs done := by
  induction bs generalizing chain with
  | nil => exact ⟨chain, .nil chain⟩
  | cons block bs ih =>
      obtain ⟨parent, hadm⟩ := h.admitted hindexed hfree hnone hwork
      obtain ⟨done, hrest⟩ := ih (h.tail parent work)
        (extendTip_indexed hindexed hadm h.linked.1) (hfree.extendTip parent work) hnone
      exact ⟨done, .cons hadm h.linked.1 hrest⟩

end Prolongs

end Chain

end Bitrst
