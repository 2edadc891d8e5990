import Bitrst.Branch
import Bitrst.LinearRun
import Bitrst.Retarget

/-!
# The bits demanded of a block

`expected_bits` reads the active chain by position.  The rule it stands for is
a function of the branch of the block: the parent's bits inside a period, and
at its end the retarget of the parent over the block that opened the period.
Above a fork the two differ unless the period of the active chain and that of
the branch have quotients which the retarget does not tell apart.
-/

namespace Bitrst

open Support

variable [Crypto] [Features]

/-- The retarget of a period from its first to its last block. -/
def retarget (first last : Block) : ChainResult UInt32 :=
  match adjustBits last.header.bits (saturatingSubU32 last.header.time first.header.time) with
  | .error e => .error (.error (.difficulty e))
  | .ok bits => .ok bits

/-- The target of the last block of a period, scaled by the time the period took. -/
def periodQuotient (first last : Block) : ℕ :=
  (Target.fromBits last.header.bits).elim 0 fun prev ↦
    retargeted prev (saturatingSubU32 last.header.time first.header.time)

omit [Crypto] [Features] in
/-- Two periods are retargeted to one result exactly when their quotients are alike. -/
theorem retarget_eq_iff {first last first' last' : Block} {prev prev' : Target}
    (hprev : Target.fromBits last.header.bits = some prev)
    (hprev' : Target.fromBits last'.header.bits = some prev') :
    retarget first last = retarget first' last' ↔
      RetargetAlike (periodQuotient first last) (periodQuotient first' last') := by
  unfold periodQuotient
  rw [hprev, hprev', Option.elim_some, Option.elim_some, ← adjustBits_eq_iff hprev hprev']
  unfold retarget
  cases adjustBits last.header.bits (saturatingSubU32 last.header.time first.header.time) <;>
    cases adjustBits last'.header.bits (saturatingSubU32 last'.header.time first'.header.time) <;>
    simp

omit [Crypto] [Features] in
theorem retarget_maxCompactBits_iff {first last : Block} {prev : Target}
    (hprev : Target.fromBits last.header.bits = some prev) :
    retarget first last = .ok maxCompactBits ↔
      maxTarget.value ≤ periodQuotient first last ∧ periodQuotient first last < 2 ^ 256 := by
  unfold periodQuotient
  rw [hprev, Option.elim_some, ← adjustBits_maxCompactBits_iff hprev]
  unfold retarget
  cases adjustBits last.header.bits (saturatingSubU32 last.header.time first.header.time) <;> simp

namespace Chain

variable {genesis : Block} {chain : Chain}

/-- The bits that the branch of `parent` prescribes for a child. -/
def requiredBits (chain : Chain) (parent : BlockMeta) : ChainResult UInt32 :=
  let height := parent.height + 1
  if height % difficultyAdjustmentInterval ≠ 0 then .ok parent.block.header.bits
  else
    match (chain.branch parent.block.hash)[height - difficultyAdjustmentInterval]? with
    | none => .error (.error .missingAncestor)
    | some first => retarget first parent.block

/-- The branch that ends in `parent` and the active chain are alike where it matters for a child
of `parent`.  Inside a period the tip has the bits of the parent.  At its end the parent is on the
active chain; or it is not, and the periods that the active chain and the branch have at these
heights are retargeted alike; or the active chain has not come as far as the start of the period,
and the branch is so slow that it is capped. -/
inductive ActiveAgrees (chain : Chain) (parent : BlockMeta) : Prop
  | inside {tip : Block} (height : (parent.height + 1) % difficultyAdjustmentInterval ≠ 0)
      (last : chain.blocks.getLast? = some tip)
      (bits : tip.header.bits = parent.block.header.bits)
  | onChain (height : (parent.height + 1) % difficultyAdjustmentInterval = 0)
      (active : parent.block ∈ chain.blocks)
  | offChain {first last own : Block}
      (height : (parent.height + 1) % difficultyAdjustmentInterval = 0)
      (starts : chain.blocks[parent.height + 1 - difficultyAdjustmentInterval]? = some first)
      (ends : chain.blocks[parent.height]? = some last)
      (opens : (chain.branch parent.block.hash)[parent.height + 1 -
        difficultyAdjustmentInterval]? = some own)
      (alike : RetargetAlike (periodQuotient first last) (periodQuotient own parent.block))
  | short {own : Block} (height : (parent.height + 1) % difficultyAdjustmentInterval = 0)
      (before : chain.blocks.length ≤ parent.height + 1 - difficultyAdjustmentInterval)
      (opens : (chain.branch parent.block.hash)[parent.height + 1 -
        difficultyAdjustmentInterval]? = some own)
      (slow : maxTarget.value ≤ periodQuotient own parent.block)
      (fits : periodQuotient own parent.block < 2 ^ 256)

/-- The bits of every known block decode to a target. -/
def BitsDecode (chain : Chain) : Prop :=
  ∀ hash entry, chain.known.lookup hash = some entry →
    ∃ target, Target.fromBits entry.block.header.bits = some target

omit [Crypto] [Features] in
theorem exists_target_of_blockWork {bits : UInt32} {work : ChainWork}
    (h : blockWork bits = .ok work) : ∃ target, Target.fromBits bits = some target := by
  unfold blockWork at h
  split at h
  · cases h
  · rename_i target htarget
    exact ⟨target, htarget⟩

theorem connectAlone_bitsDecode (h : Indexed genesis chain) (hdecode : BitsDecode chain)
    (order : OrphanOrder) (block : Block) : BitsDecode (connectAlone order block chain).2 := by
  cases hadm : chain.admission block with
  | error stop =>
      rw [connectAlone_eq, hadm]
      exact hdecode
  | ok found =>
      cases found with
      | none =>
          obtain ⟨orphans, seq, journal, heq, -⟩ := insertOrphan_spec order chain block
          rw [connectAlone_eq, hadm]
          simp only [heq]
          exact hdecode
      | some pair =>
          have hadmitted := admission_some_iff.mp hadm
          rw [connectAlone_eq_place order hadmitted]
          intro hash entry hentry
          rcases (place_placement h hadmitted).known_cases hentry with hblock | ⟨old, hold, hblock⟩
          · rw [hblock]
            exact exists_target_of_blockWork hadmitted.block_work
          · rw [← hblock]
            exact hdecode hash old hold

theorem Reachable.bitsDecode (h : Reachable genesis chain) : BitsDecode chain := by
  refine (h.invariant (fun c ↦ Coherent genesis c ∧ BitsDecode c) ?_ ?_ ?_
    (fun _ _ hc ↦ ⟨hc.1.congr rfl rfl rfl rfl, hc.2⟩)
    (fun _ _ hc ↦ ⟨hc.1.congr rfl rfl rfl rfl, hc.2⟩)).2
  · intro networkTime capacity c created
    refine ⟨withJournalCapacities_coherent created, ?_⟩
    obtain ⟨work, hwork, rfl⟩ := withJournalCapacities_spec created
    intro hash entry hentry
    change ((blank networkTime capacity).pushTip genesis 0 work).known.lookup hash =
      some entry at hentry
    rw [pushTip_known] at hentry
    split at hentry
    · rw [← Option.some.inj hentry]
      exact exists_target_of_blockWork hwork
    · cases hentry
  · rintro c _ ⟨hc, hdecode⟩ hfewer
    refine ⟨hfewer.coherent hc, ?_⟩
    obtain ⟨orphans, rfl, -⟩ := hfewer
    exact hdecode
  · exact fun order c block hc _ ↦
      ⟨connectAlone_coherent hc.1 order block,
        connectAlone_bitsDecode hc.1.indexed hc.2 order block⟩

omit [Features] in
/-- A known block that is active is so at its height. -/
theorem Indexed.getElem?_height (h : Indexed genesis chain) {hash : Hash256} {parent : BlockMeta}
    (hparent : chain.known.lookup hash = some parent) (hactive : parent.block ∈ chain.blocks) :
    chain.blocks[parent.height]? = some parent.block := by
  obtain ⟨i, hi⟩ := List.mem_iff_getElem?.mp hactive
  obtain ⟨entry, hentry, -, rfl⟩ := h.active_known i parent.block hi
  rw [h.known_hash hash parent hparent] at hentry
  obtain rfl := Option.some.inj (hparent.symm.trans hentry)
  exact hi

/-- At a retarget height the branch reaches back to the start of the period. -/
theorem exists_periodStart (h : Indexed genesis chain) {hash : Hash256} {parent : BlockMeta}
    (hparent : chain.known.lookup hash = some parent)
    (hheight : (parent.height + 1) % difficultyAdjustmentInterval = 0) :
    ∃ own, (chain.branch parent.block.hash)[parent.height + 1 -
      difficultyAdjustmentInterval]? = some own := by
  have hpos := difficultyAdjustmentInterval_pos
  have hle : difficultyAdjustmentInterval ≤ parent.height + 1 :=
    Nat.le_of_dvd (Nat.succ_pos _) (Nat.dvd_of_mod_eq_zero hheight)
  rw [h.known_hash hash parent hparent]
  refine ⟨_, List.getElem?_eq_getElem ?_⟩
  rw [h.length_branch hparent]
  omega

omit [Crypto] in
theorem expectedBits_of_dvd {height : ℕ} (bits : UInt32) (hpos : height ≠ 0)
    (hheight : height % difficultyAdjustmentInterval = 0) :
    chain.expectedBits height bits =
      if chain.blocks.length ≤ height - difficultyAdjustmentInterval then .ok maxCompactBits
      else
        match chain.blocks[height - difficultyAdjustmentInterval]?,
          chain.blocks[height - 1]? with
        | some first, some last => retarget first last
        | _, _ => .error .panic := by
  rw [expectedBits, if_neg hpos, if_neg (not_not.mpr hheight)]
  rfl

omit [Crypto] [Features] in
theorem retarget_ne_panic (first last : Block) : retarget first last ≠ .error .panic := by
  unfold retarget
  split <;> simp

/-- The bits demanded at the end of a period are those of the branch exactly when the parent is
active, or the quotients of the two periods are alike, or the branch is capped and the active
chain too short. -/
theorem expectedBits_eq_requiredBits_of_dvd (h : Indexed genesis chain)
    (hdecode : BitsDecode chain) {hash : Hash256} {parent : BlockMeta}
    (hparent : chain.known.lookup hash = some parent) (bits : UInt32)
    (hheight : (parent.height + 1) % difficultyAdjustmentInterval = 0) :
    chain.expectedBits (parent.height + 1) bits = chain.requiredBits parent ↔
      ActiveAgrees chain parent := by
  obtain ⟨own, hown⟩ := exists_periodStart h hparent hheight
  obtain ⟨prev, hprev⟩ := hdecode hash parent hparent
  have hrequired : chain.requiredBits parent = retarget own parent.block := by
    unfold requiredBits
    simp only [hown]
    exact if_neg (not_not.mpr hheight)
  have hlastHeight : parent.height + 1 - 1 = parent.height := Nat.add_sub_cancel ..
  rw [hrequired, expectedBits_of_dvd bits (Nat.add_one_ne_zero _) hheight, hlastHeight]
  constructor
  · intro heq
    split at heq
    · rename_i hshort
      obtain ⟨hslow, hfits⟩ := (retarget_maxCompactBits_iff hprev).mp heq.symm
      exact .short hheight hshort hown hslow hfits
    · split at heq
      · rename_i first last hfirst hlast
        obtain ⟨entry, hentry, rfl, -⟩ := h.active_known _ last hlast
        obtain ⟨prev', hprev'⟩ := hdecode _ entry hentry
        exact .offChain hheight hfirst hlast hown ((retarget_eq_iff hprev' hprev).mp heq)
      · exact (retarget_ne_panic own parent.block heq.symm).elim
  · intro hagrees
    cases hagrees with
    | inside hnot _ _ => exact (hnot hheight).elim
    | onChain _ hactive =>
        have hlast := h.getElem?_height hparent hactive
        have hlt := (List.getElem?_eq_some_iff.mp hlast).1
        rw [h.branch_active hlast] at hown
        have hpos := difficultyAdjustmentInterval_pos
        rw [List.getElem?_take_of_lt (by omega)] at hown
        rw [if_neg (by omega), hown, hlast]
    | offChain _ hfirst hlast hown' halike =>
        obtain rfl := Option.some.inj (hown.symm.trans hown')
        have hlt := (List.getElem?_eq_some_iff.mp hfirst).1
        rw [if_neg (Nat.not_le.mpr hlt), hfirst, hlast]
        obtain ⟨entry, hentry, rfl, -⟩ := h.active_known _ _ hlast
        obtain ⟨prev', hprev'⟩ := hdecode _ entry hentry
        exact (retarget_eq_iff hprev' hprev).mpr halike
    | short _ hshort hown' hslow hfits =>
        obtain rfl := Option.some.inj (hown.symm.trans hown')
        rw [if_pos hshort]
        exact ((retarget_maxCompactBits_iff hprev).mpr ⟨hslow, hfits⟩).symm

theorem expectedBits_eq_requiredBits_iff (h : Indexed genesis chain) (hdecode : BitsDecode chain)
    {hash : Hash256} {parent : BlockMeta} (hparent : chain.known.lookup hash = some parent)
    (bits : UInt32) :
    chain.expectedBits (parent.height + 1) bits = chain.requiredBits parent ↔
      ActiveAgrees chain parent := by
  by_cases hheight : (parent.height + 1) % difficultyAdjustmentInterval = 0
  · exact expectedBits_eq_requiredBits_of_dvd h hdecode hparent bits hheight
  · obtain ⟨keep, tip, -, hblocks, -⟩ := h.exists_tip
    have htip : chain.blocks.getLast? = some tip := by simp [hblocks]
    have hrequired : chain.requiredBits parent = .ok parent.block.header.bits :=
      if_pos hheight
    rw [hrequired, expectedBits_of_not_dvd bits hheight htip]
    constructor
    · exact fun heq ↦ .inside hheight htip (Except.ok.inj heq)
    · intro hagrees
      cases hagrees with
      | inside _ htip' hbits =>
          obtain rfl := Option.some.inj (htip.symm.trans htip')
          rw [hbits]
      | onChain hdvd _ => exact (hheight hdvd).elim
      | offChain hdvd _ _ _ _ => exact (hheight hdvd).elim
      | short hdvd _ _ _ _ => exact (hheight hdvd).elim

/-- The branch of the tip is the active chain. -/
theorem activeAgrees_tip (h : Indexed genesis chain) {parent : BlockMeta}
    (hparent : chain.known.lookup chain.tipHash = some parent) : ActiveAgrees chain parent := by
  obtain ⟨keep, tip, entry, hblocks, htipHash, hentry, hblock, -⟩ := h.exists_tip
  rw [htipHash, hentry] at hparent
  obtain rfl := Option.some.inj hparent
  have htip : chain.blocks.getLast? = some tip := by simp [hblocks]
  by_cases hheight : (entry.height + 1) % difficultyAdjustmentInterval = 0
  · refine .onChain hheight ?_
    rw [hblock, hblocks]
    exact List.mem_append_right _ (List.mem_singleton_self tip)
  · exact .inside hheight htip (congrArg (·.header.bits) hblock.symm)

/-- A branch that leaves the active chain inside the period has its first block.  Then a rival of
the last block does no harm if it has the same bits and its time clamps to the same timespan. -/
theorem activeAgrees_of_common {parent : BlockMeta} {common above beside : List Block}
    (hheight : (parent.height + 1) % difficultyAdjustmentInterval = 0)
    (habove : chain.blocks = common ++ above)
    (hbeside : chain.branch parent.block.hash = common ++ beside) {first last : Block}
    (hfirst : common[parent.height + 1 - difficultyAdjustmentInterval]? = some first)
    (hlast : chain.blocks[parent.height]? = some last)
    (hbits : last.header.bits = parent.block.header.bits)
    (hspan : clampTimespan (saturatingSubU32 last.header.time first.header.time) targetTimespan =
      clampTimespan (saturatingSubU32 parent.block.header.time first.header.time)
        targetTimespan) : ActiveAgrees chain parent := by
  have hshared : ∀ rest : List Block, (common ++ rest)[parent.height + 1 -
      difficultyAdjustmentInterval]? = some first := fun rest ↦ by
    rw [List.getElem?_append_left (List.getElem?_eq_some_iff.mp hfirst).1, hfirst]
  refine .offChain hheight (habove ▸ hshared above) hlast (hbeside ▸ hshared beside) (Or.inl ?_)
  have hclamp := congrArg UInt32.toNat hspan
  rw [toNat_clampTimespan, toNat_clampTimespan] at hclamp
  simp only [periodQuotient, retargeted, hbits, hclamp]

/-- The rule only reads the branch. -/
theorem requiredBits_congr {genesis' : Block} {chain' : Chain} (h : Indexed genesis chain)
    (h' : Indexed genesis' chain') {hash : Hash256} {parent parent' : BlockMeta}
    (hparent : chain.known.lookup hash = some parent)
    (hparent' : chain'.known.lookup hash = some parent')
    (hbranch : chain.branch hash = chain'.branch hash) :
    chain.requiredBits parent = chain'.requiredBits parent' := by
  have hblock : parent.block = parent'.block := by
    have hlast := h.getLast?_branch hparent
    rw [hbranch, h'.getLast?_branch hparent'] at hlast
    exact (Option.some.inj hlast).symm
  have hheight : parent.height = parent'.height := by
    have hlength := h.length_branch hparent
    rw [hbranch, h'.length_branch hparent'] at hlength
    omega
  have hhash := h.known_hash hash parent hparent
  unfold requiredBits
  simp only [← hblock, hhash, hheight, hbranch]

/-- The bits demanded of a block are those its branch prescribes precisely when the
branch and the active chain are alike in these ways; where they are, chains that know
the same ancestors demand the same bits. -/
theorem expectedBits_on_branch_iff (h : Reachable genesis chain) {block : Block}
    {parent : BlockMeta} (hparent : chain.known.lookup block.header.prevBlockhash = some parent) :
    (chain.expectedBits (parent.height + 1) block.header.bits = chain.requiredBits parent ↔
      ActiveAgrees chain parent) ∧
    ∀ (genesis' : Block) (chain' : Chain) (parent' : BlockMeta), Reachable genesis' chain' →
      chain'.known.lookup block.header.prevBlockhash = some parent' →
        chain.branch block.header.prevBlockhash = chain'.branch block.header.prevBlockhash →
          ActiveAgrees chain parent → ActiveAgrees chain' parent' →
            chain.expectedBits (parent.height + 1) block.header.bits =
              chain'.expectedBits (parent'.height + 1) block.header.bits := by
  have hc := (ReachableWith.coherent h).indexed
  refine ⟨expectedBits_eq_requiredBits_iff hc h.bitsDecode hparent _, ?_⟩
  intro genesis' chain' parent' h' hparent' hbranch hagrees hagrees'
  have hc' := (ReachableWith.coherent h').indexed
  rw [(expectedBits_eq_requiredBits_iff hc h.bitsDecode hparent _).mpr hagrees,
    (expectedBits_eq_requiredBits_iff hc' h'.bitsDecode hparent' _).mpr hagrees',
    requiredBits_congr hc hc' hparent hparent' hbranch]

end Chain

end Bitrst

namespace Bitrst.Sample

open Support

/-! ## A rival at the end of a period -/

section ShortPeriod

local instance shortPeriod : Features where
  testShortPeriod := true

/-- The chain of the genesis block at a later network time. -/
def opened : Chain :=
  { (Chain.blank 5000000 256).pushTip genesis 0 easyWork with totalWork := easyWork }

theorem opened_reachable : Chain.Reachable genesis opened :=
  .start (Chain.withJournalCapacities_of_valid (by decide) (by decide +kernel)
    (by decide +kernel) blockWork_easyBits)

/-- A block that repeats the coinbase of the genesis block and has no other transaction. -/
def bare (parent : Hash256) (time : ℕ) (nonce : UInt32) : Block :=
  ⟨header parent coinId0 (.ofNat time) nonce, [coin 0]⟩

/-- Such blocks, each on the last and a second later. -/
def bareRun : Hash256 → ℕ → List UInt32 → List Block
  | _, _, [] => []
  | parent, time, nonce :: rest =>
      bare parent time nonce :: bareRun (bare parent time nonce).hash (time + 1) rest

/-- A block of the coinbase alone passes every check that does not read the chain. -/
theorem bare_coin {block : Block} (htransactions : block.transactions = [coin 0])
    (hroot : block.header.merkleRoot = coinId0) (hpow : Chain.meetsTarget block = true) :
    Chain.Bare block := by
  have hcoin : UtxoSet.outputSum (coin 0) = .ok 50 ∧
      Chain.validateBlockLimits (bare zeroHash 0 0) = .ok () ∧
      Block.merkleRootFromTransactions [coin 0] = some coinId0 := by
    decide +kernel
  obtain ⟨hsum, hlimits, hmerkle⟩ := hcoin
  refine ⟨⟨coin 0, 50, htransactions, by decide, hsum⟩, ?_, hpow, ?_⟩
  · obtain ⟨header, transactions⟩ := block
    obtain rfl : transactions = [coin 0] := htransactions
    exact hlimits
  · rw [Block.headerMerkleRootMatches, htransactions, hmerkle, hroot]
    exact beq_self_eq_true coinId0

theorem bare_bare {parent : Hash256} {time : ℕ} {nonce : UInt32}
    (hpow : Chain.meetsTarget (bare parent time nonce) = true) :
    Chain.Bare (bare parent time nonce) := bare_coin rfl rfl hpow

theorem bareRun_linked (parent : Hash256) (time : ℕ) (nonces : List UInt32) :
    Chain.LinkedAbove parent (bareRun parent time nonces) := by
  induction nonces generalizing parent time with
  | nil => trivial
  | cons nonce rest ih => exact ⟨rfl, ih _ _⟩

/-- A block of the run repeats the coinbase, within the seconds of the run. -/
theorem mem_bareRun {parent : Hash256} {time : ℕ} {nonces : List UInt32} {b : Block}
    (hb : b ∈ bareRun parent time nonces) :
    ∃ below at' nonce, b = bare below at' nonce ∧ time ≤ at' ∧ at' < time + nonces.length := by
  induction nonces generalizing parent time with
  | nil => cases hb
  | cons nonce rest ih =>
      rcases List.mem_cons.mp hb with rfl | hb
      · exact ⟨parent, time, nonce, rfl, le_rfl, by simp⟩
      · obtain ⟨below, at', nonce', hbare, hle, hlt⟩ := ih hb
        exact ⟨below, at', nonce', hbare, by omega, by rw [List.length_cons]; omega⟩

theorem bareRun_times {parent : Hash256} {time : ℕ} {nonces : List UInt32}
    (hfits : time + nonces.length < 2 ^ 32) :
    (bareRun parent time nonces).Pairwise fun b b' ↦ b.header.time < b'.header.time := by
  induction nonces generalizing parent time with
  | nil => exact .nil
  | cons nonce rest ih =>
      rw [List.length_cons] at hfits
      refine .cons (fun b hb ↦ ?_) (ih (by omega))
      obtain ⟨below, at', nonce', rfl, hle, hlt⟩ := mem_bareRun hb
      change UInt32.ofNat time < UInt32.ofNat at'
      rw [UInt32.lt_iff_toNat_lt, UInt32.toNat_ofNat', UInt32.toNat_ofNat']
      omega

/-- The hash of a block as a number, on a parent whose hash is one. -/
def bareNumber (parent time : ℕ) (nonce : UInt32) : ℕ :=
  let root := 0x8a005288263ed9c0ad6e57288b010bd75570fe7481262438f780d92414f6fe36
  let message := ((0x01000000 * 256 ^ 32 + parent) * 256 ^ 32 + root) * 256 ^ 12 +
    beNat (u32ToLeBytes (.ofNat time) ++ u32ToLeBytes easyBits ++ u32ToLeBytes nonce)
  Sha256.digestNumber 32 (Sha256.digestNumber 80 message % 256 ^ 32) % 256 ^ 32

theorem bareNumber_eq (parent : Hash256) (time : ℕ) (nonce : UInt32) :
    bareNumber (beNat parent.toList) time nonce = beNat (bare parent time nonce).hash.toList := by
  have hdigest : ∀ message : Bytes, beNat (Crypto.sha256 message).toList =
      Sha256.digestNumber message.length (beNat message) % 256 ^ 32 := by
    intro message
    rw [sha256_eq]
    exact beNat_beBytes 32 _
  have hheader : (bare parent time nonce).header.serialize =
      ((i32ToLeBytes 1 ++ parent.toList) ++ coinId0.toList) ++
        (u32ToLeBytes (.ofNat time) ++ u32ToLeBytes easyBits ++ u32ToLeBytes nonce) := by
    simp [BlockHeader.serialize, bare, header]
  have hlength : (bare parent time nonce).header.serialize.length = 80 := by
    rw [hheader]
    simp [i32ToLeBytes, u32ToLeBytes]
  have hnumber : beNat (bare parent time nonce).header.serialize =
      ((beNat (i32ToLeBytes 1) * 256 ^ 32 + beNat parent.toList) * 256 ^ 32 +
        beNat coinId0.toList) * 256 ^ 12 +
          beNat (u32ToLeBytes (.ofNat time) ++ u32ToLeBytes easyBits ++ u32ToLeBytes nonce) := by
    rw [hheader, beNat_append, beNat_append, beNat_append, List.Vector.toList_length,
      List.Vector.toList_length]
    rfl
  rw [Block.hash, sha256d, hdigest, hdigest, List.Vector.toList_length, hlength, hnumber]
  have hroot : beNat coinId0.toList =
      0x8a005288263ed9c0ad6e57288b010bd75570fe7481262438f780d92414f6fe36 := by decide +kernel
  have hversion : beNat (i32ToLeBytes 1) = 0x01000000 := by decide +kernel
  rw [hroot, hversion, bareNumber]

/-- The residue by which the hashes of a run are told apart. -/
def mark (hash : Hash256) : ℕ := beNat hash.toList % 6659

/-- No number of the list occurs twice or is a bit of `used`. -/
def distinct : List ℕ → ℕ → Bool
  | [], _ => true
  | n :: rest, used => !used.testBit n &&
      forced (Nat.lor used (Nat.pow 2 n)) (distinct rest)

theorem distinct_spec {ns : List ℕ} {used : ℕ} (h : distinct ns used = true) :
    ns.Nodup ∧ ∀ n ∈ ns, used.testBit n = false := by
  induction ns generalizing used with
  | nil => exact ⟨List.nodup_nil, by simp⟩
  | cons n rest ih =>
      rw [distinct, forced_eq, Bool.and_eq_true, Bool.not_eq_true'] at h
      obtain ⟨hrest, hunused⟩ := ih h.2
      have hbits : ∀ m ∈ rest, used.testBit m = false ∧ n ≠ m := by
        intro m hm
        have hbit : (used ||| 2 ^ n).testBit m = false := hunused m hm
        simpa [Nat.testBit_or, Nat.testBit_two_pow] using hbit
      refine ⟨List.nodup_cons.mpr ⟨fun hn ↦ (hbits n hn).2 rfl, hrest⟩, ?_⟩
      intro m hm
      rcases List.mem_cons.mp hm with rfl | hm
      · exact h.1
      · exact (hbits m hm).1

/-- The run of these nonces ends in `last`, and all its hashes meet the target and have the marks
that stand beside the nonces. -/
def runsTo (last : ℕ) : ℕ → ℕ → List (UInt32 × ℕ) → Bool
  | parent, _, [] => parent == last
  | parent, time, (nonce, residue) :: rest =>
      forced (bareNumber parent time nonce) fun number ↦
        (Target.mk (spliceZeroed 29 [0xff, 0xff, 0x7f])).meets (beVector 32 number) &&
          number % 6659 == residue && runsTo last number (time + 1) rest

/-- A run can be checked in parts. -/
theorem runsTo_append {last middle parent time later : ℕ} {front back : List (UInt32 × ℕ)}
    (hfront : runsTo middle parent time front = true)
    (hback : runsTo last middle later back = true) (hlater : time + front.length = later) :
    runsTo last parent time (front ++ back) = true := by
  induction front generalizing parent time with
  | nil =>
      obtain rfl : parent = middle := by simpa [runsTo] using hfront
      obtain rfl : time = later := hlater
      exact hback
  | cons step rest ih =>
      rw [runsTo, forced_eq, Bool.and_eq_true] at hfront
      rw [List.cons_append, runsTo, forced_eq, Bool.and_eq_true]
      rw [List.length_cons] at hlater
      exact ⟨hfront.1, ih hfront.2 (by omega)⟩

theorem meetsTarget_bare (parent : Hash256) (time : ℕ) (nonce : UInt32) :
    Chain.meetsTarget (bare parent time nonce) =
      (Target.mk (spliceZeroed 29 [0xff, 0xff, 0x7f])).meets (bare parent time nonce).hash := by
  have hbits : Target.fromBits (bare parent time nonce).header.bits =
      some ⟨spliceZeroed 29 [0xff, 0xff, 0x7f]⟩ := by
    change Target.fromBits easyBits = _
    decide +kernel
  rw [Chain.meetsTarget, hbits]

theorem runsTo_spec {last time : ℕ} {parent : Hash256} {steps : List (UInt32 × ℕ)}
    (h : runsTo last (beNat parent.toList) time steps = true) :
    (∀ b ∈ bareRun parent time (steps.map Prod.fst), Chain.meetsTarget b = true) ∧
    ((bareRun parent time (steps.map Prod.fst)).map fun b ↦ mark b.hash) = steps.map Prod.snd ∧
    ((bareRun parent time (steps.map Prod.fst)).getLast?.map Block.hash).getD parent =
      beVector 32 last := by
  induction steps generalizing parent time with
  | nil =>
      refine ⟨by simp [bareRun], rfl, ?_⟩
      have hlast : beNat parent.toList = last := by simpa [runsTo] using h
      rw [← hlast, beVector_beNat]
      rfl
  | cons step rest ih =>
      obtain ⟨nonce, residue⟩ := step
      rw [runsTo, bareNumber_eq, forced_eq, beVector_beNat, ← meetsTarget_bare] at h
      simp only [Bool.and_eq_true, beq_iff_eq] at h
      obtain ⟨⟨hmeets, hmark⟩, hrest⟩ := h
      obtain ⟨hall, hmarks, hlast⟩ := ih hrest
      refine ⟨?_, ?_, ?_⟩
      · intro b hb
        rcases List.mem_cons.mp hb with rfl | hb
        · exact hmeets
        · exact hall b hb
      · rw [List.map_cons, List.map_cons, bareRun, List.map_cons, hmarks]
        exact congrArg (· :: _) hmark
      · rw [List.map_cons, bareRun, List.getLast?_cons]
        rw [← hlast]
        cases (bareRun (bare parent time nonce).hash (time + 1) (rest.map Prod.fst)).getLast? <;>
          rfl

/-- The nonces of a run from one hash to another, with the marks of its hashes. -/
structure Mined (parent last time : ℕ) where
  steps : List (UInt32 × ℕ)
  runs : runsTo last parent time steps = true

/-- A run that goes on where another ends. -/
def Mined.append {parent middle last time later : ℕ} (front : Mined parent middle time)
    (back : Mined middle last later) (hlater : time + front.steps.length = later) :
    Mined parent last time where
  steps := front.steps ++ back.steps
  runs := runsTo_append front.runs back.runs hlater

def approachHash : Hash256 := beVector 32
  0x1bab5fb650595969d5219d0a26a9be45f7efe08748fa500407debb0104d98d48

/-- The last block of the period, a second after the one before. -/
def prompt : Block := bare approachHash 1255 0

/-- The last block of the period on a side branch, four timespans later. -/
def late : Block := bare approachHash 4839655 2

/-- The last block of the period on a side branch, less than a minute later. -/
def nearby : Block := bare approachHash 1300 0

/-- The first block after the period, which the active chain takes. -/
def capped : Block :=
  ⟨⟨1, prompt.hash, coinId0, 1258, maxCompactBits, 427393671⟩, [coin 0]⟩

/-- A sibling of it, which does not have the bits demanded. -/
def sibling : Block := bare prompt.hash 1259 0

theorem ends_apart : genesis.hash = genesisHash ∧ genesis.hash ≠ prompt.hash ∧
    approachHash ≠ prompt.hash := by
  decide +kernel

theorem ends_meet : Chain.meetsTarget prompt = true ∧ Chain.meetsTarget late = true ∧
    Chain.meetsTarget nearby = true := by
  decide +kernel

theorem ends_retarget : retarget genesis prompt = .ok maxCompactBits ∧
    retarget genesis late = .error (.error (.difficulty .overflow)) := by
  decide +kernel

/-! The nonces of the run and the marks of its hashes, each computed from the last.  They are
checked in four parts, so that no part takes long. -/

def middle0 : ℕ := 0x8717c6372726234a85d066275a930564503323f60dc62569d8d998f731f98c1b

def part0 : Mined (beNat genesisHash.toList) middle0 1001 where
  steps := [
    (1, 532), (1, 2567), (1, 5839), (0, 3637), (3, 553), (3, 541), (1, 4922), (0, 1015), (3, 3930),
    (2, 3399), (0, 435), (1, 1526), (0, 1343), (0, 6413), (0, 627), (0, 4216), (1, 184), (0, 6097),
    (0, 3793), (1, 4412), (0, 312), (0, 2941), (0, 3960), (0, 4372), (0, 4266), (0, 4015), (0, 91),
    (0, 4527), (1, 5309), (3, 4400), (0, 3691), (0, 1851), (1, 5899), (2, 4062), (1, 3608),
    (0, 2220), (0, 6530), (1, 1612), (0, 3817), (0, 2922), (3, 6201), (1, 2432), (0, 4440),
    (0, 5496), (0, 6348), (0, 1959), (3, 2980), (0, 4230), (0, 1041), (0, 4328), (0, 579),
    (0, 2389), (0, 86), (1, 4014), (0, 2894), (1, 169), (0, 2233), (1, 4879), (5, 1621), (0, 2253),
    (0, 2100), (0, 3243), (4, 5569), (1, 428)]
  runs := by decide +kernel

def middle1 : ℕ := 0xdb21f64fa7edd7494f5fcc8e116805c7b24f0d3d55dc291c7df1547ddba11513

def part1 : Mined middle0 middle1 1065 where
  steps := [
    (0, 5408), (1, 605), (0, 191), (0, 6432), (1, 6339), (1, 5006), (1, 6231), (1, 213), (3, 4168),
    (0, 2243), (0, 130), (0, 2716), (0, 6363), (0, 5951), (1, 6161), (0, 2231), (0, 4692),
    (0, 1843), (2, 200), (1, 3833), (0, 2676), (1, 4007), (0, 539), (0, 4448), (0, 3536), (0, 4073),
    (4, 1832), (0, 552), (0, 6616), (0, 2503), (1, 4691), (5, 1018), (0, 1191), (1, 5366),
    (4, 5316), (0, 2326), (2, 3207), (3, 5610), (0, 3594), (3, 5793), (0, 5221), (1, 4174),
    (0, 3244), (0, 5516), (12, 2736), (0, 1372), (2, 6315), (0, 2843), (0, 3625), (1, 2634),
    (0, 1181), (1, 5904), (0, 2940), (3, 3148), (0, 6253), (1, 6188), (0, 3690), (3, 6429),
    (0, 3136), (0, 20), (0, 6307), (1, 1037), (0, 5098), (0, 109)]
  runs := by decide +kernel

def middle2 : ℕ := 0x201310733ef8b3cdf177a1d40265ada3be72d7b936d022c2fde8379267b8063c

def part2 : Mined middle1 middle2 1129 where
  steps := [
    (0, 4505), (0, 3241), (3, 6079), (3, 1835), (0, 4485), (0, 3831), (0, 5295), (0, 2749),
    (1, 3984), (0, 3455), (1, 5151), (1, 5861), (1, 6375), (0, 4472), (0, 837), (1, 4716), (3, 314),
    (0, 924), (1, 6454), (0, 5374), (0, 1026), (1, 2365), (2, 5095), (0, 856), (0, 5041), (3, 670),
    (0, 1450), (6, 4112), (3, 6205), (1, 3753), (0, 340), (0, 5976), (0, 1458), (0, 2351),
    (1, 2336), (2, 5437), (3, 5571), (0, 229), (0, 1553), (0, 4923), (0, 3729), (0, 176), (1, 2094),
    (0, 2449), (2, 5858), (3, 3249), (1, 574), (0, 3546), (0, 3382), (0, 2514), (1, 446), (0, 1089),
    (0, 5682), (0, 4473), (5, 2493), (2, 72), (1, 2807), (0, 1844), (3, 958), (0, 74), (0, 1663),
    (3, 4929), (0, 1196)]
  runs := by decide +kernel

def part3 : Mined middle2 (beNat approachHash.toList) 1192 where
  steps := [
    (0, 661), (0, 289), (2, 5574), (0, 6052), (1, 5741), (0, 3045), (0, 3256), (1, 4239), (3, 5125),
    (1, 5299), (0, 2614), (0, 4883), (0, 4625), (0, 6407), (1, 3389), (0, 6412), (1, 5556),
    (1, 1414), (0, 2592), (1, 3355), (2, 6032), (2, 3874), (1, 1649), (0, 4029), (2, 3486),
    (0, 1213), (0, 4405), (0, 2447), (0, 5363), (0, 5192), (5, 3046), (0, 1500), (5, 4617),
    (0, 4167), (0, 947), (1, 1768), (2, 825), (1, 6618), (0, 2743), (1, 1028), (1, 4358), (0, 2348),
    (0, 5031), (0, 1690), (2, 3953), (0, 874), (0, 6539), (0, 6208), (0, 2049), (0, 5629),
    (1, 2146), (0, 2276), (2, 4516), (0, 4707), (2, 403), (1, 4082), (0, 1062), (0, 5071),
    (1, 4902), (0, 6006), (0, 2993), (0, 1472), (1, 5883)]
  runs := by decide +kernel

/-- The nonces of the first period. -/
def mined : Mined (beNat genesisHash.toList) (beNat approachHash.toList) 1001 :=
  ((part0.append part1 (by decide +kernel)).append part2 (by decide +kernel)).append part3
    (by decide +kernel)

theorem mined_length : mined.steps.length = 254 := by decide +kernel

/-- The blocks up to the last but one of the first period. -/
def approach : List Block := bareRun genesisHash 1001 (mined.steps.map Prod.fst)

/-- The other hashes that occur here. -/
def otherHashes : List Hash256 :=
  [genesisHash, prompt.hash, late.hash, nearby.hash, capped.hash, sibling.hash]

theorem marks_apart : (otherHashes.map mark ++ mined.steps.map Prod.snd).Nodup :=
  (distinct_spec (show distinct _ 0 = true by decide +kernel)).1

theorem approach_spec :
    (∀ b ∈ approach, Chain.meetsTarget b = true) ∧
    (approach.Pairwise fun b b' ↦ b.hash ≠ b'.hash) ∧
    (approach.getLast?.map Block.hash).getD genesisHash = approachHash := by
  obtain ⟨hall, hmarks, hlast⟩ := runsTo_spec mined.runs
  refine ⟨hall, ?_, hlast.trans (beVector_beNat _)⟩
  have hnodup := (List.nodup_append.mp marks_apart).2.1
  rw [← hmarks, List.Nodup, List.pairwise_map] at hnodup
  exact hnodup.imp fun hne heq ↦ hne (congrArg mark heq)

theorem approach_apart {b : Block} (hb : b ∈ approach) {hash : Hash256}
    (hhash : hash ∈ otherHashes) : b.hash ≠ hash := by
  rintro rfl
  have hmark : mark b.hash ∈ mined.steps.map Prod.snd := by
    rw [← (runsTo_spec mined.runs).2.1]
    exact List.mem_map_of_mem hb
  exact (List.nodup_append.mp marks_apart).2.2 _ (List.mem_map_of_mem hhash) _ hmark rfl

theorem approach_length : approach.length = 254 := by
  have hlength : ∀ parent time (nonces : List UInt32),
      (bareRun parent time nonces).length = nonces.length := by
    intro parent time nonces
    induction nonces generalizing parent time with
    | nil => rfl
    | cons nonce rest ih => rw [bareRun, List.length_cons, ih, List.length_cons]
  rw [approach, hlength, List.length_map, mined_length]

/-- The times of the run lie between those of the genesis block and of `prompt`. -/
theorem mem_approach {b : Block} (hb : b ∈ approach) :
    ∃ below at' nonce, b = bare below at' nonce ∧ 1001 ≤ at' ∧ at' < 1255 := by
  obtain ⟨below, at', nonce, hbare, hle, hlt⟩ := mem_bareRun hb
  rw [List.length_map, mined_length] at hlt
  exact ⟨below, at', nonce, hbare, hle, hlt⟩

theorem lt_time {below below' : Hash256} {a a' : ℕ} {nonce nonce' : UInt32} (h : a < a')
    (hfits : a' < 2 ^ 32) :
    (bare below a nonce).header.time < (bare below' a' nonce').header.time := by
  change UInt32.ofNat a < UInt32.ofNat a'
  rw [UInt32.lt_iff_toNat_lt, UInt32.toNat_ofNat', UInt32.toNat_ofNat']
  omega

theorem prolongs : Chain.Prolongs opened easyBits (approach ++ [prompt]) where
  linked := by
    have htip : opened.tipHash = genesis.hash := Chain.tipHash_of_append [] rfl
    rw [htip, ends_apart.1]
    exact (bareRun_linked _ _ _).concat approach_spec.2.2.symm
  bare := by
    intro b hb
    rcases List.mem_append.mp hb with hb | hb
    · have hmeets := approach_spec.1 b hb
      obtain ⟨below, at', nonce, rfl, -⟩ := mem_approach hb
      exact bare_bare hmeets
    · obtain rfl := List.mem_singleton.mp hb
      exact bare_bare ends_meet.1
  tip_bits := by
    intro tip htip
    obtain rfl := Option.some.inj htip
    rfl
  bits := by
    intro b hb
    rcases List.mem_append.mp hb with hb | hb
    · obtain ⟨below, at', nonce, rfl, -⟩ := mem_approach hb
      rfl
    · obtain rfl := List.mem_singleton.mp hb
      rfl
  time_le := by
    intro b hb
    rcases List.mem_append.mp hb with hb | hb
    · obtain ⟨below, at', nonce, rfl, -, hlt⟩ := mem_approach hb
      have hless : (bare below at' nonce).header.time < prompt.header.time :=
        lt_time hlt (by decide)
      exact UInt32.le_trans (UInt32.le_of_lt hless) (by decide)
    · obtain rfl := List.mem_singleton.mp hb
      decide
  times := by
    change (genesis :: (approach ++ [prompt])).Pairwise _
    refine .cons (fun b hb ↦ ?_) (List.pairwise_append.mpr
      ⟨bareRun_times (by rw [List.length_map, mined_length]; decide), List.pairwise_singleton _ _,
        fun b hb b' hb' ↦ ?_⟩)
    · rcases List.mem_append.mp hb with hb | hb
      · obtain ⟨below, at', nonce, rfl, hle, hlt⟩ := mem_approach hb
        have hless : (bare zeroHash 1000 0).header.time < (bare below at' nonce).header.time :=
          lt_time hle (by omega)
        exact hless
      · obtain rfl := List.mem_singleton.mp hb
        decide
    · obtain rfl := List.mem_singleton.mp hb'
      obtain ⟨below, at', nonce, rfl, -, hlt⟩ := mem_approach hb
      exact lt_time hlt (by decide)
  hashes := by
    obtain ⟨hgenesis, hprompt, -⟩ := ends_apart
    change (genesis :: (approach ++ [prompt])).Pairwise _
    refine .cons (fun b hb ↦ ?_) (List.pairwise_append.mpr
      ⟨approach_spec.2.1, List.pairwise_singleton _ _, fun b hb b' hb' ↦ ?_⟩)
    · rcases List.mem_append.mp hb with hb | hb
      · rw [hgenesis]
        exact (approach_apart hb (by simp [otherHashes])).symm
      · rwa [List.mem_singleton.mp hb]
    · rw [List.mem_singleton.mp hb']
      exact approach_apart hb (by simp [otherHashes])
  short := by
    rw [List.length_append, approach_length]
    decide

theorem opened_forkFree : opened.ForkFree := by
  intro hash entry hentry
  change ((Chain.blank 5000000 256).pushTip genesis 0 easyWork).known.lookup hash =
    some entry at hentry
  rw [Chain.pushTip_known] at hentry
  split at hentry
  · obtain rfl := Option.some.inj hentry
    exact List.mem_singleton_self _
  · cases hentry

theorem validBlockTime_of_before {chain : Chain} (hfree : chain.ForkFree) {hash : Hash256}
    {parent : BlockMeta} {time : UInt32} (hparent : chain.known.lookup hash = some parent)
    (hbefore : ∀ b ∈ chain.blocks, b.header.time < time)
    (hnetwork : time ≤ saturatingAddU32 chain.networkTime maxFutureBlockTime) :
    validBlockTime time (chain.medianPastTimeBefore hash) chain.networkTime = true := by
  obtain ⟨key, entry, hentry, htime⟩ := Chain.mem_pastTimes (Chain.medianPastTimeBefore_mem hparent)
  have hless := hbefore entry.block (hfree key entry hentry)
  rw [htime] at hless
  rw [validBlockTime, Bool.and_eq_true, decide_eq_true_eq, decide_eq_true_eq]
  exact ⟨hless, hnetwork⟩

theorem unknown_of_apart {chain : Chain} (hfree : chain.ForkFree)
    (hindexed : Chain.Indexed genesis chain) {hash : Hash256}
    (hapart : ∀ b ∈ chain.blocks, b.hash ≠ hash) : chain.known.lookup hash = none := by
  by_contra hknown
  obtain ⟨entry, hentry⟩ := Option.ne_none_iff_exists'.mp hknown
  obtain ⟨b, hb, hhash⟩ := hfree.mem_active hindexed hentry
  exact hapart b hb hhash

/-! The chain at the end of the first period, and a rival stored beside its tip. -/

/-- A block that can be stored in the place of `prompt` when that has come. -/
structure Rival (rival : Block) : Prop where
  bare : Chain.Bare rival
  prev : rival.header.prevBlockhash = approachHash
  bits : rival.header.bits = easyBits
  later : prompt.header.time < rival.header.time
  inTime : rival.header.time ≤ saturatingAddU32 5000000 maxFutureBlockTime
  apart : genesis.hash ≠ rival.hash ∧ prompt.hash ≠ rival.hash ∧
    ∀ b ∈ approach, b.hash ≠ rival.hash

theorem late_rival : Rival late where
  bare := bare_bare ends_meet.2.1
  prev := rfl
  bits := rfl
  later := by decide
  inTime := by decide
  apart := by
    have hends : genesis.hash ≠ late.hash ∧ prompt.hash ≠ late.hash := by decide +kernel
    exact ⟨hends.1, hends.2, fun b hb ↦ approach_apart hb (by simp [otherHashes])⟩

theorem nearby_rival : Rival nearby where
  bare := bare_bare ends_meet.2.2
  prev := rfl
  bits := rfl
  later := by decide
  inTime := by decide
  apart := by
    have hends : genesis.hash ≠ nearby.hash ∧ prompt.hash ≠ nearby.hash := by decide +kernel
    exact ⟨hends.1, hends.2, fun b hb ↦ approach_apart hb (by simp [otherHashes])⟩

section Ended

variable {ended : Chain} (h : Chain.Extension opened (approach ++ [prompt]) ended)

include h

theorem ended_reachable : Chain.Reachable genesis ended := h.reachable order rfl opened_reachable

theorem ended_blocks : ended.blocks = genesis :: (approach ++ [prompt]) := by
  have hblocks := h.blocks_eq
  have hopened : opened.blocks = [genesis] := rfl
  rw [hopened, List.singleton_append] at hblocks
  exact hblocks

theorem ended_tipHash : ended.tipHash = prompt.hash := by
  have hblocks : ended.blocks = (genesis :: approach) ++ [prompt] := by
    rw [ended_blocks h, List.cons_append]
  exact Chain.tipHash_of_append _ hblocks

theorem ended_length : ended.blocks.length = 256 := by
  rw [ended_blocks h, List.length_cons, List.length_append, approach_length]
  rfl

theorem ended_orphans : ended.orphans = ∅ := by
  rw [h.orphans_eq]
  rfl

/-- A rival is later than every active block and has another hash. -/
theorem ended_before_rival {rival : Block} (hrival : Rival rival) {b : Block}
    (hb : b ∈ ended.blocks) : b.header.time < rival.header.time ∧ b.hash ≠ rival.hash := by
  obtain ⟨hgenesis, hprompt, happroach⟩ := hrival.apart
  rw [ended_blocks h] at hb
  rcases List.mem_cons.mp hb with rfl | hb
  · exact ⟨UInt32.lt_trans (by decide) hrival.later, hgenesis⟩
  · rcases List.mem_append.mp hb with hb | hb
    · have hne := happroach b hb
      obtain ⟨below, at', nonce, rfl, -, hlt⟩ := mem_approach hb
      exact ⟨UInt32.lt_trans (lt_time hlt (by decide)) hrival.later, hne⟩
    · rw [List.mem_singleton.mp hb]
      exact ⟨hrival.later, hprompt⟩

theorem rival_admitted {rival : Block} (hrival : Rival rival) :
    ∃ parent, Chain.Admitted ended rival parent easyWork ∧
      parent.height = 254 ∧ ended.totalWork = parent.work.add easyWork := by
  have hstart := (Chain.ReachableWith.coherent opened_reachable).indexed
  have hindexed := h.indexed hstart
  have hfree := h.forkFree opened_forkFree
  obtain ⟨before, parent, work, hbefore, hprompt, htip, hended⟩ := h.concat
  have hheight := hprompt.height_eq (hbefore.indexed hstart) htip
  have hwork : work = easyWork :=
    Except.ok.inj (hprompt.block_work.symm.trans blockWork_easyBits)
  have hprev : approachHash ≠ prompt.hash := ends_apart.2.2
  have hparent : ended.known.lookup approachHash = some parent := by
    rw [hended, Chain.extendTip]
    exact (Chain.pushTip_known _ _ _ _ _).trans ((if_neg hprev).trans hprompt.parent_known)
  have hlast : ended.blocks.getLast? = some prompt := by
    rw [ended_blocks h, ← List.cons_append]
    exact List.getLast?_concat
  have hopened : opened.blocks.length = 1 := rfl
  rw [hbefore.blocks_eq, List.length_append, approach_length, hopened] at hheight
  rw [← hrival.prev] at hparent
  refine ⟨parent, hrival.bare.admitted ?_ ?_ hparent ?_ ?_ (hrival.bits ▸ blockWork_easyBits),
    by omega, by rw [hended, hwork]; rfl⟩
  · exact unknown_of_apart hfree hindexed fun b hb ↦ (ended_before_rival h hrival hb).2
  · rw [ended_orphans h]
    rfl
  · refine validBlockTime_of_before hfree hparent
      (fun b hb ↦ (ended_before_rival h hrival hb).1) ?_
    rw [h.networkTime_eq]
    exact hrival.inTime
  · have hnot : (parent.height + 1) % difficultyAdjustmentInterval ≠ 0 := by
      rw [hheight]
      decide
    rw [hrival.bits]
    exact Chain.expectedBits_of_not_dvd easyBits hnot hlast

theorem ended_ends : ended.blocks[0]? = some genesis ∧ ended.blocks[255]? = some prompt := by
  rw [ended_blocks h]
  refine ⟨rfl, ?_⟩
  rw [List.getElem?_cons_succ, List.getElem?_append_right (by rw [approach_length]),
    approach_length]
  rfl

/-- On top of the ended period the bits demanded are those of the cap. -/
theorem ended_demands_cap (bits : UInt32) : ended.expectedBits 256 bits = .ok maxCompactBits := by
  have hinterval : difficultyAdjustmentInterval = 256 := rfl
  obtain ⟨hfirst, hlast⟩ := ended_ends h
  rw [Chain.expectedBits_of_dvd bits (by decide) (by rw [hinterval]), ended_length h, hinterval,
    if_neg (by decide), hfirst, hlast]
  exact ends_retarget.1

/-- A rival of the last block is stored beside the chain, whose first block its branch shares. -/
theorem delivered_rival {rival : Block} (hrival : Rival rival) :
    ∃ parent, Chain.Reachable genesis (Chain.deliverAll [(order, rival)] ended) ∧
      (Chain.deliverAll [(order, rival)] ended).blocks = ended.blocks ∧
      (Chain.deliverAll [(order, rival)] ended).known.lookup rival.hash = some parent ∧
      parent.block = rival ∧ parent.height = 255 ∧
      ((Chain.deliverAll [(order, rival)] ended).branch rival.hash)[0]? = some genesis := by
  obtain ⟨below, hadmitted, hheight, htotal⟩ := rival_admitted h hrival
  have hindexed := (Chain.ReachableWith.coherent (ended_reachable h)).indexed
  have htip : rival.header.prevBlockhash ≠ ended.tipHash := by
    rw [hrival.prev, ended_tipHash h]
    exact ends_apart.2.2
  have hlighter : (below.work.add easyWork).le ended.totalWork := by
    rw [htotal]
    exact ChainWork.le_iff.mpr le_rfl
  have hplace := Chain.place_side htip hlighter
  have hreachable := Chain.ReachableWith.place order (ended_reachable h) hindexed
    (ended_orphans h) hadmitted (by rw [hplace]; simp [Returned]) trivial
  rw [hplace] at hreachable
  rw [Chain.deliverAll_side hindexed (ended_orphans h) order hadmitted htip hlighter]
  have hknown : (ended.storeSide rival below easyWork).known.lookup rival.hash =
      some ⟨rival, below.height + 1, below.work.add easyWork, []⟩ := by
    rw [Chain.storeSide_known, if_pos rfl]
  refine ⟨_, hreachable, rfl, hknown, rfl, by rw [hheight], ?_⟩
  rw [← List.head?_eq_getElem?]
  exact (Chain.ReachableWith.coherent hreachable).indexed.head?_branch hknown

/-- A child of the late rival is measured by the last block of the active chain. -/
theorem delivered_late_bits : Chain.Reachable genesis (Chain.deliverAll [(order, late)] ended) ∧
    ∃ parent, (Chain.deliverAll [(order, late)] ended).known.lookup late.hash = some parent ∧
      parent.height + 1 = 256 ∧
      (∀ bits, (Chain.deliverAll [(order, late)] ended).expectedBits 256 bits =
        .ok maxCompactBits) ∧
      (Chain.deliverAll [(order, late)] ended).requiredBits parent =
        .error (.error (.difficulty .overflow)) := by
  have hinterval : difficultyAdjustmentInterval = 256 := rfl
  obtain ⟨parent, hreachable, hblocks, hknown, hblock, hheight, hbranch⟩ :=
    delivered_rival h late_rival
  refine ⟨hreachable, parent, hknown, by rw [hheight], fun bits ↦ ?_, ?_⟩
  · have hdemands := ended_demands_cap h bits
    unfold Chain.expectedBits at hdemands ⊢
    rwa [hblocks]
  · unfold Chain.requiredBits
    simp only [hheight, hinterval, hblock]
    rw [if_neg (by decide), hbranch]
    exact ends_retarget.2

/-- The rival that came soon after is measured like the block it rivals. -/
theorem delivered_nearby_bits : ∃ parent,
    Chain.Reachable genesis (Chain.deliverAll [(order, nearby)] ended) ∧
      (Chain.deliverAll [(order, nearby)] ended).known.lookup nearby.hash = some parent ∧
      parent.height + 1 = 256 ∧ (Chain.deliverAll [(order, nearby)] ended).ActiveAgrees parent := by
  have hinterval : difficultyAdjustmentInterval = 256 := rfl
  obtain ⟨hfirst, hlast⟩ := ended_ends h
  obtain ⟨parent, hreachable, hblocks, hknown, hblock, hheight, hbranch⟩ :=
    delivered_rival h nearby_rival
  have halike : periodQuotient genesis prompt = periodQuotient genesis nearby := by decide +kernel
  refine ⟨parent, hreachable, hknown, by rw [hheight], ?_⟩
  apply Chain.ActiveAgrees.offChain (by rw [hheight, hinterval])
  · rw [hheight, hinterval, hblocks]
    exact hfirst
  · rw [hheight, hblocks]
    exact hlast
  · rw [hheight, hinterval, hblock]
    exact hbranch
  · rw [hblock]
    exact Or.inl halike

end Ended

/-- The blocks of a period, and a rival of the last of them. -/
def rivalled (rival : Block) : Chain :=
  Chain.deliverAll ((approach ++ [prompt]).map (order, ·) ++ [(order, rival)]) opened

theorem rivalled_nearby_on_branch : ∃ parent, Chain.Reachable genesis (rivalled nearby) ∧
    (rivalled nearby).known.lookup nearby.hash = some parent ∧ parent.height + 1 = 256 ∧
    ∀ child : Block, child.header.prevBlockhash = nearby.hash →
      (rivalled nearby).expectedBits (parent.height + 1) child.header.bits =
        (rivalled nearby).requiredBits parent := by
  have hstart := (Chain.ReachableWith.coherent opened_reachable).indexed
  obtain ⟨ended, hended⟩ := prolongs.exists_extension hstart opened_forkFree rfl
    blockWork_easyBits
  have hrivalled : rivalled nearby = Chain.deliverAll [(order, nearby)] ended := by
    rw [rivalled, Chain.deliverAll_append, hended.deliverAll_eq hstart rfl order]
  obtain ⟨parent, hreachable, hknown, hheight, hagrees⟩ := delivered_nearby_bits hended
  rw [hrivalled]
  refine ⟨parent, hreachable, hknown, hheight, fun child hchild ↦ ?_⟩
  rw [← hchild] at hknown
  exact (Chain.expectedBits_on_branch_iff hreachable hknown).1.mpr hagrees

/-- On a side branch the bits demanded are not those of the branch. -/
theorem diverged_demands_active_bits : Chain.Reachable genesis (rivalled late) ∧
    ∃ parent, (rivalled late).known.lookup late.hash = some parent ∧ parent.height + 1 = 256 ∧
      (∀ bits, (rivalled late).expectedBits 256 bits = .ok maxCompactBits) ∧
      (rivalled late).requiredBits parent = .error (.error (.difficulty .overflow)) := by
  have hstart := (Chain.ReachableWith.coherent opened_reachable).indexed
  obtain ⟨ended, hended⟩ := prolongs.exists_extension hstart opened_forkFree rfl
    blockWork_easyBits
  rw [rivalled, Chain.deliverAll_append, hended.deliverAll_eq hstart rfl order]
  exact delivered_late_bits hended

end ShortPeriod

end Bitrst.Sample
