import Bitrst.ChainIndex

/-!
# One specification for each function of `chain.rs`

The loops of a reorganisation are computed here once: the fork walk finds a
path of inactive indexed blocks above an active one, the disconnect loop is a
`rewind`, and connecting the path is a sequence of pushes.  `connectAlone_eq`
and `connectBlock_eq` then say what the entry points do.
-/

namespace Bitrst

open Support

variable [Crypto]

/-- The block became the tip, so waiting orphans are looked at. -/
def ConnectResult.becameTip : ConnectResult → Bool
  | .connected _ _ => true
  | .reorganized _ _ => true
  | .orphaned _ => false
  | .sideChain _ _ => false

namespace Chain

variable {genesis : Block} {chain : Chain}

/-! ## Disconnecting -/

theorem disconnectTipBlock_eq {keep : List Block} {tip : Block} {entry : BlockMeta}
    (hblocks : chain.blocks = keep ++ [tip])
    (hentry : chain.known.lookup tip.hash = some entry) :
    chain.disconnectTipBlock = (.ok (), chain.popTip tip) := by
  have hlast : chain.blocks.getLast? = some tip := by simp [hblocks]
  have hundo : chain.undoOf tip.hash = entry.undo := by simp [undoOf, hentry]
  rw [disconnectTipBlock, hlast]
  simp only [hentry, popTip, hundo]
  rfl

/-- Every turn of the disconnect loop above the fork pops the last active block. -/
theorem disconnectLoop_turns (h : Indexed genesis chain) {keep front back : List Block}
    {fork : Block} (hblocks : chain.blocks = keep ++ fork :: (front ++ back)) (fuel count : ℕ) :
    disconnectLoop fork.hash (fuel + back.length) count chain =
      disconnectLoop fork.hash fuel (count + back.length) (rewind back chain) := by
  induction back using List.reverseRecOn generalizing chain count with
  | nil => rfl
  | append_singleton back tip ih =>
      have hlast : chain.blocks = (keep ++ fork :: (front ++ back)) ++ [tip] := by
        simpa using hblocks
      have htip : chain.tipHash = tip.hash := tipHash_of_append _ hlast
      have hne : tip.hash ≠ fork.hash := by
        have hnodup := h.hashes_nodup
        rw [hlast, List.map_append, List.nodup_append] at hnodup
        exact fun heq ↦ hnodup.2.2 fork.hash (List.mem_map_of_mem (by simp)) tip.hash
          (by simp) heq.symm
      obtain ⟨entry, hentry, -⟩ := h.mem_active_known (b := tip) (by simp [hlast])
      have hpop := h.popTip hlast (by simp)
      have hpopBlocks : (chain.popTip tip).blocks = keep ++ fork :: (front ++ back) := by
        rw [popTip_blocks, hlast, List.dropLast_concat]
      rw [List.length_append, List.length_singleton, ← Nat.add_assoc, disconnectLoop, htip,
        if_pos hne, disconnectTipBlock_eq hlast hentry]
      simp only
      rw [ih hpop hpopBlocks (count + 1), rewind_append, rewind_cons, rewind_nil,
        Nat.add_right_comm, Nat.add_assoc count]

/-- The disconnect loop pops exactly the blocks above the block with the fork hash. -/
theorem disconnectLoop_eq (h : Indexed genesis chain) {keep post : List Block} {fork : Block}
    (hblocks : chain.blocks = keep ++ fork :: post) {fuel : ℕ} (hfuel : post.length < fuel)
    (count : ℕ) :
    disconnectLoop fork.hash fuel count chain =
      (.ok (count + post.length), rewind post chain) := by
  obtain ⟨left, rfl⟩ : ∃ left, fuel = (left + 1) + post.length := ⟨fuel - post.length - 1, by omega⟩
  have hstop : (rewind post chain).tipHash = fork.hash :=
    tipHash_of_append keep (rewind_blocks (by simpa using hblocks))
  have hturns := disconnectLoop_turns h (List.nil_append post ▸ hblocks) (left + 1) count
  rw [hturns, disconnectLoop, hstop, if_neg (fun hne ↦ hne rfl)]

/-! ## The fork path -/

/-- A path of linked blocks above the hash `below`. -/
def LinkedAbove : Hash256 → List Block → Prop
  | _, [] => True
  | below, block :: rest =>
      block.header.prevBlockhash = below ∧ LinkedAbove block.hash rest

/-- What the fork walk finds: the blocks before the last are indexed and not active. -/
structure ForkPath (chain : Chain) (block : Block) (path : List Block) (forkHash : Hash256) :
    Prop where
  active : forkHash ∈ chain.activeHashes
  linked : LinkedAbove forkHash path
  last : ∃ stored, path = stored ++ [block] ∧ ∀ b ∈ stored, b.hash ∉ chain.activeHashes ∧
    ∃ entry, chain.known.lookup b.hash = some entry ∧ entry.block = b

theorem collectForkPathLoop_spec (h : Indexed genesis chain) (block : Block) :
    ∀ (fuel : ℕ) (tip : Block) (path : List Block) (parent : BlockMeta),
      chain.known.lookup tip.header.prevBlockhash = some parent →
      parent.height + 1 < fuel →
      LinkedAbove tip.hash path →
      (∃ stored, tip :: path = stored ++ [block] ∧ ∀ b ∈ stored, b.hash ∉ chain.activeHashes ∧
        ∃ entry, chain.known.lookup b.hash = some entry ∧ entry.block = b) →
      ∃ found forkHash, collectForkPathLoop chain fuel tip path = .ok (found, forkHash) ∧
        ForkPath chain block found forkHash := by
  intro fuel
  induction fuel with
  | zero => omega
  | succ fuel ih =>
      intro tip path parent hparent hfuel hlinked hstored
      rw [collectForkPathLoop]
      by_cases hactive : tip.header.prevBlockhash ∈ chain.activeHashes
      · simp only [if_pos hactive]
        exact ⟨_, _, rfl, hactive, ⟨rfl, hlinked⟩, hstored⟩
      · simp only [if_neg hactive, hparent]
        have hhash := h.known_hash _ _ hparent
        rcases h.known_parent _ _ hparent with hgen | ⟨grand, hgrand, hheight⟩
        · exact (hactive (hgen ▸ (h.active_iff _).mpr ⟨genesis, h.genesis_mem, rfl⟩)).elim
        · refine ih parent.block (tip :: path) grand hgrand (by omega) ⟨hhash.symm, hlinked⟩ ?_
          obtain ⟨stored, heq, hall⟩ := hstored
          refine ⟨parent.block :: stored, by rw [heq]; rfl, ?_⟩
          intro b hb
          rcases List.mem_cons.mp hb with rfl | hb
          · rw [hhash]
            exact ⟨hactive, parent, hparent, rfl⟩
          · exact hall b hb

/-- The fork walk succeeds for every block with a known parent. -/
theorem collectForkPath_spec (h : Indexed genesis chain) {block : Block} {parent : BlockMeta}
    (hparent : chain.known.lookup block.header.prevBlockhash = some parent) :
    ∃ path forkHash, chain.collectForkPath block = .ok (path, forkHash) ∧
      ForkPath chain block path forkHash := by
  have hfuel := h.height_lt_card hparent
  exact collectForkPathLoop_spec h block _ block [] parent hparent (by omega) trivial
    ⟨[], rfl, by simp⟩

/-! ## Connecting the fork path -/

/-- The push of one block of the fork path. -/
def pushForkBlock (chain : Chain) (block : Block) (work : ChainWork) : Chain :=
  chain.pushTip block (chain.height + 1) ((chain.parentWork block).add work)

/-- A block of the fork path passes validation when its turn comes. -/
def ForkBlockValid [Features] (chain : Chain) (block : Block) (work : ChainWork) : Prop :=
  chain.validateBlockForParent block chain.blocks.getLast?
      (some block.header.prevBlockhash) (chain.height + 1) = .ok () ∧
    blockWork block.header.bits = .ok work

/-- The blocks of a path pass validation one after the other, and pushing them
leads to `done`. -/
inductive ConnectsPath [Features] : List Block → Chain → Chain → Prop
  | nil (chain : Chain) : ConnectsPath [] chain chain
  | cons {chain done : Chain} {block : Block} {rest : List Block} {work : ChainWork}
      (valid : ForkBlockValid chain block work)
      (tail : ConnectsPath rest (chain.pushForkBlock block work) done) :
      ConnectsPath (block :: rest) chain done

theorem connectForkPath_ok_iff [Features] {path : List Block} {chain done : Chain} :
    connectForkPath path chain = (.ok (), done) ↔ ConnectsPath path chain done := by
  induction path generalizing chain with
  | nil =>
      constructor
      · intro h
        obtain rfl : chain = done := by simpa [connectForkPath] using h
        exact .nil _
      · rintro ⟨⟩
        rfl
  | cons block rest ih =>
      constructor
      · intro h
        simp only [connectForkPath] at h
        split at h
        · simp at h
        · rename_i hvalid
          split at h
          · simp at h
          · rename_i work hwork
            exact .cons ⟨hvalid, hwork⟩ (ih.mp h)
      · rintro (_ | ⟨⟨hvalid, hwork⟩, htail⟩)
        simp only [connectForkPath, hvalid, hwork]
        exact ih.mpr htail

/-- When the path does not connect, a valid part of it was pushed, and at most
the transactions of the next block were applied besides. -/
theorem connectForkPath_error [Features] {path : List Block} {chain failed : Chain} {e : Stop}
    (h : connectForkPath path chain = (.error e, failed)) :
    ∃ front block rest reached, path = front ++ block :: rest ∧
      ConnectsPath front chain reached ∧
        ∃ utxo, failed = { reached with utxo := utxo } := by
  induction path generalizing chain with
  | nil => simp [connectForkPath] at h
  | cons block rest ih =>
      simp only [connectForkPath] at h
      split at h
      · obtain ⟨-, rfl⟩ := Prod.mk.inj h
        exact ⟨[], block, rest, chain, rfl, .nil _, chain.utxo, rfl⟩
      · rename_i hvalid
        split at h
        · obtain ⟨-, rfl⟩ := Prod.mk.inj h
          exact ⟨[], block, rest, chain, rfl, .nil _, _, rfl⟩
        · rename_i work hwork
          obtain ⟨front, next, tail, reached, hpath, hconnects, hfailed⟩ := ih h
          exact ⟨block :: front, next, tail, reached, by rw [hpath]; rfl,
            .cons ⟨hvalid, hwork⟩ hconnects, hfailed⟩

/-! ## Reorganising -/

/-- The rollback of a failed reorganisation. -/
def restoreActive (chain failed : Chain) : Chain :=
  { failed with
    blocks := chain.blocks
    utxo := chain.utxo
    totalWork := chain.totalWork
    activeHashes := chain.activeHashes }

/-- The active list splits at the fork of a path. -/
theorem ForkPath.split {block : Block} {path : List Block} {forkHash : Hash256}
    (h : Indexed genesis chain) (hpath : ForkPath chain block path forkHash) :
    ∃ keep fork post, chain.blocks = keep ++ fork :: post ∧ fork.hash = forkHash := by
  obtain ⟨fork, hmem, hhash⟩ := (h.active_iff _).mp hpath.active
  obtain ⟨keep, post, heq⟩ := List.append_of_mem hmem
  exact ⟨keep, fork, post, heq, hhash⟩

/-- A reorganisation rewinds to the fork, connects the path and rolls back on an error. -/
theorem reorgToBlock_eq [Features] (h : Indexed genesis chain) {block : Block}
    {path : List Block} {forkHash : Hash256} {keep post : List Block} {fork : Block}
    (hcollect : chain.collectForkPath block = .ok (path, forkHash))
    (hblocks : chain.blocks = keep ++ fork :: post) (hfork : fork.hash = forkHash)
    (work : ChainWork) :
    chain.reorgToBlock block work =
      match connectForkPath path (rewind post chain) with
      | (.error e, failed) => (.error e, chain.restoreActive failed)
      | (.ok (), done) => (.ok post.length, { done with totalWork := work }) := by
  obtain ⟨entry, hentry, -⟩ := h.mem_active_known (b := fork) (by simp [hblocks])
  have hfind : chain.findHeight forkHash = some entry.height := by
    rw [findHeight, ← hfork, hentry]
    rfl
  have hloop : disconnectLoop forkHash (chain.blocks.length + 2) 0 chain =
      (.ok post.length, rewind post chain) := by
    rw [← hfork, disconnectLoop_eq h hblocks (by simp [hblocks]; omega), Nat.zero_add]
  rw [reorgToBlock, hcollect]
  simp only [tryReorgToBlock, hfind, hloop]
  cases connectForkPath path (rewind post chain) with
  | mk result done => cases result <;> rfl

/-! ## The entry points -/

/-- The checks that `connect_block_inner` makes before it changes anything:
`none` for a block without a known parent, else the parent's index entry and
the block's own work. -/
def admission [Features] (chain : Chain) (block : Block) :
    ChainResult (Option (BlockMeta × ChainWork)) :=
  match validateBlockLimits block with
  | .error e => .error (.error e)
  | .ok () =>
      if (chain.known.lookup block.hash).isSome ∨ (chain.orphans.lookup block.hash).isSome then
        .error (.error .blockAlreadyKnown)
      else
        match chain.known.lookup block.header.prevBlockhash with
        | none => .ok none
        | some parent =>
            match chain.validateBlockForParent block (some parent.block)
                (some block.header.prevBlockhash) (parent.height + 1) with
            | .error e => .error e
            | .ok () =>
                match blockWork block.header.bits with
                | .error e => .error (.error e)
                | .ok work => .ok (some (parent, work))

/-- What a passed admission establishes. -/
structure Admitted [Features] (chain : Chain) (block : Block) (parent : BlockMeta)
    (work : ChainWork) : Prop where
  limits : validateBlockLimits block = .ok ()
  unknown : chain.known.lookup block.hash = none
  not_orphan : chain.orphans.lookup block.hash = none
  parent_known : chain.known.lookup block.header.prevBlockhash = some parent
  valid : chain.validateBlockForParent block (some parent.block)
    (some block.header.prevBlockhash) (parent.height + 1) = .ok ()
  block_work : blockWork block.header.bits = .ok work

theorem Admitted.unique [Features] {chain : Chain} {block : Block} {parent parent' : BlockMeta}
    {work work' : ChainWork} (h : Admitted chain block parent work)
    (h' : Admitted chain block parent' work') : parent' = parent ∧ work' = work :=
  ⟨Option.some.inj (h'.parent_known.symm.trans h.parent_known),
    Except.ok.inj (h'.block_work.symm.trans h.block_work)⟩

theorem admission_some_iff [Features] {chain : Chain} {block : Block} {parent : BlockMeta}
    {work : ChainWork} :
    chain.admission block = .ok (some (parent, work)) ↔ Admitted chain block parent work := by
  constructor
  · intro h
    unfold admission at h
    split at h
    · simp at h
    · rename_i hlimits
      split at h
      · simp at h
      · rename_i hfresh
        simp only [Option.not_isSome_iff_eq_none, not_or] at hfresh
        split at h
        · simp at h
        · rename_i found hparent
          split at h
          · simp at h
          · rename_i hvalid
            split at h
            · simp at h
            · rename_i found' hwork
              simp only [Except.ok.injEq, Option.some.injEq, Prod.mk.injEq] at h
              obtain ⟨rfl, rfl⟩ := h
              exact ⟨hlimits, hfresh.1, hfresh.2, hparent, hvalid, hwork⟩
  · rintro ⟨hlimits, hunknown, horphan, hparent, hvalid, hwork⟩
    simp [admission, hlimits, hunknown, horphan, hparent, hvalid, hwork]

theorem admission_none_iff [Features] {chain : Chain} {block : Block} :
    chain.admission block = .ok none ↔
      validateBlockLimits block = .ok () ∧ chain.known.lookup block.hash = none ∧
        chain.orphans.lookup block.hash = none ∧
          chain.known.lookup block.header.prevBlockhash = none := by
  constructor
  · intro h
    unfold admission at h
    split at h
    · simp at h
    · rename_i hlimits
      split at h
      · simp at h
      · rename_i hfresh
        simp only [Option.not_isSome_iff_eq_none, not_or] at hfresh
        split at h
        · rename_i hparent
          exact ⟨hlimits, hfresh.1, hfresh.2, hparent⟩
        · split at h
          · simp at h
          · split at h <;> simp at h
  · rintro ⟨hlimits, hunknown, horphan, hparent⟩
    simp [admission, hlimits, hunknown, horphan, hparent]

/-- The chain after a block was appended to the tip. -/
def extendTip (chain : Chain) (block : Block) (parent : BlockMeta) (work : ChainWork) : Chain :=
  { chain.pushTip block (parent.height + 1) (parent.work.add work) with
    totalWork := parent.work.add work }

/-- The chain after a block was indexed on a side branch. -/
def storeSide (chain : Chain) (block : Block) (parent : BlockMeta) (work : ChainWork) : Chain :=
  { chain with
    known := Finmap.insert block.hash
      ⟨block, parent.height + 1, parent.work.add work, []⟩ chain.known }

/-- The part of `connect_block_inner` after the checks, without orphan promotion. -/
def place [Features] (chain : Chain) (block : Block) (parent : BlockMeta) (work : ChainWork) :
    ChainResult ConnectResult × Chain :=
  if block.header.prevBlockhash = chain.tipHash then
    (.ok (.connected (parent.height + 1) block.hash), chain.extendTip block parent work)
  else if (parent.work.add work).le chain.totalWork then
    (.ok (.sideChain (parent.height + 1) block.hash), chain.storeSide block parent work)
  else
    match chain.reorgToBlock block (parent.work.add work) with
    | (.error e, failed) => (.error e, failed)
    | (.ok depth, done) =>
        (.ok (.reorganized chain.tipHash done.tipHash),
          done.pushEvent (.chainReorg depth chain.tipHash done.tipHash))

theorem connectAlone_eq [Features] (order : OrphanOrder) (block : Block) (chain : Chain) :
    connectAlone order block chain =
      match chain.admission block with
      | .error e => (.error e, chain)
      | .ok none => (.ok (.orphaned block.hash), chain.insertOrphan order block)
      | .ok (some (parent, work)) => chain.place block parent work := by
  simp only [connectAlone, connectBlockInner, admission]
  cases validateBlockLimits block with
  | error e => rfl
  | ok _ =>
      simp only
      split
      · rfl
      · cases chain.known.lookup block.header.prevBlockhash with
        | none => rfl
        | some parent =>
            simp only
            cases chain.validateBlockForParent block (some parent.block)
              (some block.header.prevBlockhash) (parent.height + 1) with
            | error e => rfl
            | ok _ =>
                simp only
                cases blockWork block.header.bits with
                | error e => rfl
                | ok work =>
                    simp only [place]
                    split
                    · rfl
                    · split
                      · rfl
                      · cases chain.reorgToBlock block (parent.work.add work) with
                        | mk result done => cases result <;> rfl

/-- `connect_block` connects the block alone and then promotes orphans. -/
theorem connectBlock_eq [Features] (order : OrphanOrder) (block : Block) (chain : Chain) :
    connectBlock order block chain =
      match connectAlone order block chain with
      | (.error e, failed) => (.error e, failed)
      | (.ok result, placed) =>
          if result.becameTip then
            match processOrphans order placed with
            | (.error e, failed) => (.error e, failed)
            | (.ok (), done) => (.ok result, done)
          else (.ok result, placed) := by
  simp only [connectAlone, connectBlock, connectBlockInner]
  cases validateBlockLimits block with
  | error e => rfl
  | ok _ =>
      simp only
      split
      · rfl
      · cases chain.known.lookup block.header.prevBlockhash with
        | none => rfl
        | some parent =>
            simp only
            cases chain.validateBlockForParent block (some parent.block)
              (some block.header.prevBlockhash) (parent.height + 1) with
            | error e => rfl
            | ok _ =>
                simp only
                cases blockWork block.header.bits with
                | error e => rfl
                | ok work =>
                    simp only
                    split
                    · rfl
                    · split
                      · rfl
                      · cases chain.reorgToBlock block (parent.work.add work) with
                        | mk result done => cases result <;> rfl

/-- A block that was connected or stored has passed its checks. -/
theorem connectBlock_admitted [Features] {order : OrphanOrder} {block : Block} {chain : Chain}
    {result : ConnectResult} (h : (connectBlock order block chain).1 = .ok result)
    (hplaced : ∀ hash, result ≠ .orphaned hash) :
    ∃ parent work, Admitted chain block parent work := by
  rw [connectBlock_eq, connectAlone_eq] at h
  cases hadm : chain.admission block with
  | error e =>
      rw [hadm] at h
      cases h
  | ok found =>
      cases found with
      | none =>
          rw [hadm] at h
          exact (hplaced _ (Except.ok.inj h).symm).elim
      | some pair => exact ⟨pair.1, pair.2, admission_some_iff.mp hadm⟩

end Chain

end Bitrst
