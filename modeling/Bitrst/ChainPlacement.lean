import Bitrst.ChainRun

/-!
# Placing a block

An admitted block extends the tip, is stored on a side branch, or starts a
reorganisation that succeeds or is rolled back.  A reorganisation is a rewind
to the fork followed by pushes of the fork path; `induction_on_path` is the
induction every invariant of a reorganisation uses.
-/

namespace Bitrst

open Support

variable [Crypto] [Features]

namespace Chain

variable {genesis : Block} {chain : Chain}

/-! ## Where a reorganisation forks off -/

/-- The active list splits at the block where the path of `block` leaves it. -/
structure ForkPoint (chain : Chain) (block : Block) (path keep : List Block) (fork : Block)
    (post : List Block) : Prop where
  collected : chain.collectForkPath block = .ok (path, fork.hash)
  split : chain.blocks = keep ++ fork :: post
  path : ForkPath chain block path fork.hash

omit [Features] in
theorem Indexed.exists_forkPoint (h : Indexed genesis chain) {block : Block}
    {parent : BlockMeta}
    (hparent : chain.known.lookup block.header.prevBlockhash = some parent) :
    ∃ path keep fork post, ForkPoint chain block path keep fork post := by
  obtain ⟨path, forkHash, hcollect, hpath⟩ := collectForkPath_spec h hparent
  obtain ⟨keep, fork, post, hblocks, rfl⟩ := hpath.split h
  exact ⟨path, keep, fork, post, hcollect, hblocks, hpath⟩

namespace ForkPoint

variable {block : Block} {path keep post : List Block} {fork : Block}

omit [Features] in
theorem split' (hf : ForkPoint chain block path keep fork post) :
    chain.blocks = (keep ++ [fork]) ++ post := by
  rw [hf.split, List.append_assoc]
  rfl

omit [Features] in
theorem rewind_tipHash (hf : ForkPoint chain block path keep fork post) :
    (rewind post chain).tipHash = fork.hash :=
  tipHash_of_append _ (rewind_blocks hf.split')

omit [Features] in
theorem rewind_indexed (h : Indexed genesis chain)
    (hf : ForkPoint chain block path keep fork post) : Indexed genesis (rewind post chain) :=
  h.rewind hf.split' (by simp)

omit [Features] in
theorem mem_path_cases (hf : ForkPoint chain block path keep fork post) {b : Block}
    (hb : b ∈ path) : b = block ∨ b.hash ∉ chain.activeHashes ∧
      ∃ entry, chain.known.lookup b.hash = some entry ∧ entry.block = b := by
  obtain ⟨stored, rfl, hstored⟩ := hf.path.last
  rcases List.mem_append.mp hb with hb | hb
  · exact Or.inr (hstored b hb)
  · exact Or.inl (by simpa using hb)

omit [Features] in
theorem block_mem_path (hf : ForkPoint chain block path keep fork post) : block ∈ path := by
  obtain ⟨stored, rfl, -⟩ := hf.path.last
  simp

omit [Features] in
/-- No block of the path is active. -/
theorem notMem_active (h : Indexed genesis chain)
    (hf : ForkPoint chain block path keep fork post)
    (hunknown : chain.known.lookup block.hash = none) {b : Block} (hb : b ∈ path) :
    b.hash ∉ chain.activeHashes := by
  rcases hf.mem_path_cases hb with rfl | ⟨hnot, -⟩
  · intro hactive
    obtain ⟨entry, hentry, -⟩ := h.active_lookup hactive
    rw [hunknown] at hentry
    cases hentry
  · exact hnot

omit [Features] in
theorem indexed_block (hf : ForkPoint chain block path keep fork post)
    (hunknown : chain.known.lookup block.hash = none) {b : Block} (hb : b ∈ path)
    {entry : BlockMeta} (hentry : chain.known.lookup b.hash = some entry) : entry.block = b := by
  rcases hf.mem_path_cases hb with rfl | ⟨-, entry', hentry', hblock⟩
  · rw [hunknown] at hentry
    cases hentry
  · rw [hentry'] at hentry
    obtain rfl := Option.some.inj hentry
    exact hblock

omit [Features] in
theorem eq_of_hash_eq (hf : ForkPoint chain block path keep fork post)
    (hunknown : chain.known.lookup block.hash = none) {b b' : Block} (hb : b ∈ path)
    (hb' : b' ∈ path) (heq : b.hash = b'.hash) : b = b' := by
  rcases hf.mem_path_cases hb with rfl | ⟨-, entry, hentry, hblock⟩
  · rcases hf.mem_path_cases hb' with rfl | ⟨-, entry', hentry', -⟩
    · rfl
    · rw [← heq, hunknown] at hentry'
      cases hentry'
  · rw [← hblock]
    exact hf.indexed_block hunknown hb' (heq ▸ hentry)

end ForkPoint

/-! ## Pushing the fork path -/

/-- A path that can be pushed block by block. -/
structure PathReady (genesis : Block) (chain : Chain) (path : List Block) : Prop where
  linked : LinkedAbove chain.tipHash path
  not_genesis : ∀ b ∈ path, b.hash ≠ genesis.hash
  indexed : ∀ b ∈ path, ∀ entry, chain.known.lookup b.hash = some entry → entry.block = b
  distinct : ∀ b ∈ path, ∀ b' ∈ path, b.hash = b'.hash → b = b'

omit [Features] in
theorem ForkPoint.pathReady (h : Indexed genesis chain) {block : Block}
    {path keep post : List Block} {fork : Block}
    (hf : ForkPoint chain block path keep fork post)
    (hunknown : chain.known.lookup block.hash = none) :
    PathReady genesis (Chain.rewind post chain) path where
  linked := by
    rw [hf.rewind_tipHash]
    exact hf.path.linked
  not_genesis := fun b hb heq ↦ hf.notMem_active h hunknown hb
    ((h.active_iff _).mpr ⟨genesis, h.genesis_mem, heq.symm⟩)
  indexed := fun b hb entry hentry ↦
    hf.indexed_block hunknown hb (by rwa [rewind_known] at hentry)
  distinct := fun b hb b' hb' heq ↦ hf.eq_of_hash_eq hunknown hb hb' heq

namespace PathReady

variable {block : Block} {rest : List Block}

omit [Features] in
theorem front {front back : List Block} (hp : PathReady genesis chain (front ++ back)) :
    PathReady genesis chain front where
  linked := by
    have hpre : ∀ (below : Hash256) (front : List Block),
        LinkedAbove below (front ++ back) → LinkedAbove below front := by
      intro below front
      induction front generalizing below with
      | nil => exact fun _ ↦ trivial
      | cons b front ih => exact fun h ↦ ⟨h.1, ih _ h.2⟩
    exact hpre _ _ hp.linked
  not_genesis := fun b hb ↦ hp.not_genesis b (List.mem_append_left _ hb)
  indexed := fun b hb ↦ hp.indexed b (List.mem_append_left _ hb)
  distinct := fun b hb b' hb' ↦
    hp.distinct b (List.mem_append_left _ hb) b' (List.mem_append_left _ hb')

omit [Features] in
/-- The parent of the next block is the tip. -/
theorem parent_eq (h : Indexed genesis chain) (hp : PathReady genesis chain (block :: rest)) :
    ∃ tip, chain.known.lookup block.header.prevBlockhash = some tip ∧
      tip.height + 1 = chain.blocks.length := by
  obtain ⟨keep, tip, entry, hblocks, htipHash, hentry, -, hheight⟩ := h.exists_tip
  refine ⟨entry, ?_, ?_⟩
  · rw [hp.linked.1, htipHash, hentry]
  · rw [hblocks, hheight, List.length_append, List.length_singleton]

omit [Features] in
theorem pushable (h : Indexed genesis chain) (hp : PathReady genesis chain (block :: rest)) :
    Indexed.Pushable chain block where
  prev := hp.linked.1
  indexed := by
    intro entry hentry
    have hblock := hp.indexed block List.mem_cons_self entry hentry
    refine ⟨hblock, ?_⟩
    obtain ⟨tip, htip, hheight⟩ := hp.parent_eq h
    rcases h.known_parent _ _ hentry with hgen | ⟨parent, hparent, hstep⟩
    · exact (hp.not_genesis block List.mem_cons_self hgen).elim
    · rw [hblock, htip] at hparent
      rw [hstep, ← Option.some.inj hparent, hheight]

omit [Features] in
theorem height_add_one (h : Indexed genesis chain) : chain.height + 1 = chain.blocks.length :=
  Nat.succ_pred_eq_of_pos (List.length_pos_iff.mpr h.blocks_ne_nil)

omit [Features] in
theorem pushForkBlock_indexed (h : Indexed genesis chain)
    (hp : PathReady genesis chain (block :: rest)) (work : ChainWork) :
    Indexed genesis (chain.pushForkBlock block work) := by
  rw [pushForkBlock, height_add_one h]
  exact h.pushTip (hp.pushable h) _

omit [Features] in
theorem tail (hp : PathReady genesis chain (block :: rest)) (work : ChainWork) :
    PathReady genesis (chain.pushForkBlock block work) rest where
  linked := by
    have htip : (chain.pushForkBlock block work).tipHash = block.hash :=
      tipHash_of_append chain.blocks rfl
    rw [htip]
    exact hp.linked.2
  not_genesis := fun b hb ↦ hp.not_genesis b (List.mem_cons_of_mem _ hb)
  indexed := by
    intro b hb entry hentry
    rw [pushForkBlock, pushTip_known] at hentry
    split at hentry
    · rename_i heq
      obtain rfl := Option.some.inj hentry
      exact hp.distinct block List.mem_cons_self b (List.mem_cons_of_mem _ hb) heq.symm
    · exact hp.indexed b (List.mem_cons_of_mem _ hb) entry hentry
  distinct := fun b hb b' hb' ↦
    hp.distinct b (List.mem_cons_of_mem _ hb) b' (List.mem_cons_of_mem _ hb')

/-- A property kept by pushing the next block of a ready path is kept by the path. -/
theorem induction_on_path (P : Chain → Prop) {path : List Block} {chain done : Chain}
    (hpush : ∀ chain block rest work, block ∈ path → Indexed genesis chain →
      PathReady genesis chain (block :: rest) → ForkBlockValid chain block work →
        P chain → P (chain.pushForkBlock block work))
    (hconnects : ConnectsPath path chain done) (h : Indexed genesis chain)
    (hp : PathReady genesis chain path) (hP : P chain) : Indexed genesis done ∧ P done := by
  induction hconnects with
  | nil chain => exact ⟨h, hP⟩
  | cons valid _ ih =>
      refine ih ?_ (hp.pushForkBlock_indexed h _) (hp.tail _)
        (hpush _ _ _ _ List.mem_cons_self h hp valid hP)
      exact fun chain block rest work hb ↦
        hpush chain block rest work (List.mem_cons_of_mem _ hb)

end PathReady

theorem ConnectsPath.orphans_eq {path : List Block} {done : Chain}
    (h : ConnectsPath path chain done) : done.orphans = chain.orphans := by
  induction h with
  | nil => rfl
  | cons _ _ ih => exact ih

theorem ConnectsPath.blocks_eq {path : List Block} {done : Chain}
    (h : ConnectsPath path chain done) : done.blocks = chain.blocks ++ path := by
  induction h with
  | nil => simp
  | cons _ _ ih =>
      rw [ih, pushForkBlock, pushTip_blocks, List.append_assoc]
      rfl

/-- The end of a connected fork path is the block it was collected for. -/
theorem ForkPoint.connects_tipHash {block : Block} {path keep post : List Block} {fork : Block}
    {done : Chain} (hf : ForkPoint chain block path keep fork post)
    (hconnects : ConnectsPath path (rewind post chain) done) : done.tipHash = block.hash := by
  obtain ⟨stored, hstored, -⟩ := hf.path.last
  apply tipHash_of_append ((rewind post chain).blocks ++ stored)
  rw [hconnects.blocks_eq, hstored, List.append_assoc]

/-- Only the blocks of the path are indexed anew. -/
theorem ConnectsPath.known_eq {path : List Block} {done : Chain}
    (h : ConnectsPath path chain done) {hash : Hash256} (hhash : ∀ b ∈ path, b.hash ≠ hash) :
    done.known.lookup hash = chain.known.lookup hash := by
  induction h with
  | nil => rfl
  | cons _ _ ih =>
      rw [ih fun b hb ↦ hhash b (List.mem_cons_of_mem _ hb), pushForkBlock, pushTip_known,
        if_neg (hhash _ List.mem_cons_self).symm]

theorem ConnectsPath.known_isSome {path : List Block} {done : Chain}
    (h : ConnectsPath path chain done) {hash : Hash256}
    (hhash : chain.known.lookup hash ≠ none) : done.known.lookup hash ≠ none := by
  induction h with
  | nil => exact hhash
  | cons _ _ ih =>
      apply ih
      rw [pushForkBlock, pushTip_known]
      split
      · simp
      · exact hhash

/-! ## The outcomes of placing a block -/

omit [Features] in
/-- Coherence only depends on the active list, the active hashes and the index. -/
theorem Indexed.congr {chain' : Chain} (h : Indexed genesis chain)
    (hblocks : chain'.blocks = chain.blocks)
    (hactive : chain'.activeHashes = chain.activeHashes)
    (hknown : chain'.known = chain.known) : Indexed genesis chain' where
  head := by rw [hblocks]; exact h.head
  linked := by rw [hblocks]; exact h.linked
  active_iff := by rw [hblocks, hactive]; exact h.active_iff
  active_known := by rw [hblocks, hknown]; exact h.active_known
  known_hash := by rw [hknown]; exact h.known_hash
  known_parent := by rw [hknown]; exact h.known_parent

/-- How an admitted block that neither extends the tip nor loses on work is placed. -/
theorem place_reorg {block : Block} {parent : BlockMeta} {work : ChainWork}
    {path keep post : List Block} {fork : Block} (h : Indexed genesis chain)
    (hf : ForkPoint chain block path keep fork post)
    (htip : block.header.prevBlockhash ≠ chain.tipHash)
    (hheavier : ¬ (parent.work.add work).le chain.totalWork) :
    chain.place block parent work =
      match connectForkPath path (rewind post chain) with
      | (.error e, failed) => (.error e, chain.restoreActive failed)
      | (.ok (), done) =>
          (.ok (.reorganized chain.tipHash done.tipHash),
            ({ done with totalWork := parent.work.add work }).pushEvent
              (.chainReorg post.length chain.tipHash done.tipHash)) := by
  rw [place, if_neg htip, if_neg hheavier, reorgToBlock_eq h hf.collected hf.split rfl]
  cases connectForkPath path (rewind post chain) with
  | mk result done => cases result <;> rfl

/-- The three ways an admitted block is placed. -/
inductive Placement (chain : Chain) (block : Block) (parent : BlockMeta) (work : ChainWork) :
    ChainResult ConnectResult × Chain → Prop
  | extended (tip : block.header.prevBlockhash = chain.tipHash) :
      Placement chain block parent work
        (.ok (.connected (parent.height + 1) block.hash), chain.extendTip block parent work)
  | side (tip : block.header.prevBlockhash ≠ chain.tipHash)
      (lighter : (parent.work.add work).le chain.totalWork) :
      Placement chain block parent work
        (.ok (.sideChain (parent.height + 1) block.hash), chain.storeSide block parent work)
  | reorganized {path keep post : List Block} {fork : Block} {done : Chain}
      (tip : block.header.prevBlockhash ≠ chain.tipHash)
      (heavier : ¬ (parent.work.add work).le chain.totalWork)
      (forks : ForkPoint chain block path keep fork post)
      (connects : ConnectsPath path (rewind post chain) done) :
      Placement chain block parent work
        (.ok (.reorganized chain.tipHash block.hash),
          ({ done with totalWork := parent.work.add work }).pushEvent
            (.chainReorg post.length chain.tipHash block.hash))
  | failed {path keep post front back : List Block} {fork next : Block} {reached : Chain}
      (e : Stop) (utxo : UtxoSet)
      (tip : block.header.prevBlockhash ≠ chain.tipHash)
      (heavier : ¬ (parent.work.add work).le chain.totalWork)
      (forks : ForkPoint chain block path keep fork post)
      (fails : (connectForkPath path (rewind post chain)).1 = .error e)
      (parts : path = front ++ next :: back)
      (connects : ConnectsPath front (rewind post chain) reached) :
      Placement chain block parent work
        (.error e, chain.restoreActive { reached with utxo := utxo })

theorem place_placement {block : Block} {parent : BlockMeta} {work : ChainWork}
    (h : Indexed genesis chain) (hadm : Admitted chain block parent work) :
    Placement chain block parent work (chain.place block parent work) := by
  by_cases htip : block.header.prevBlockhash = chain.tipHash
  · rw [place, if_pos htip]
    exact .extended htip
  · by_cases hlighter : (parent.work.add work).le chain.totalWork
    · rw [place, if_neg htip, if_pos hlighter]
      exact .side htip hlighter
    · obtain ⟨path, keep, fork, post, hf⟩ := h.exists_forkPoint hadm.parent_known
      rw [place_reorg h hf htip hlighter]
      cases hpath : connectForkPath path (rewind post chain) with
      | mk result done =>
        cases result with
        | error e =>
            obtain ⟨front, next, back, reached, hparts, hconnects, utxo, rfl⟩ :=
              connectForkPath_error hpath
            exact .failed e utxo htip hlighter hf (by rw [hpath]) hparts hconnects
        | ok _ =>
            have hconnects := connectForkPath_ok_iff.mp hpath
            simp only [hf.connects_tipHash hconnects]
            exact .reorganized htip hlighter hf hconnects

end Chain

end Bitrst
