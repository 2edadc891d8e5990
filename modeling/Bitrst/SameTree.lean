import Bitrst.ErrorAtomicity

/-!
# Chains with the same block tree

A block is placed by what the active list, the outputs and the index say, and of the
undo data only that of active blocks is read.  Chains that agree in this place a block
alike, whatever else their index holds for blocks aside.
-/

namespace Bitrst

open Support

variable [Crypto] [Features]

omit [Crypto] [Features] in
/-- The entry without its undo data. -/
def BlockMeta.bare (entry : BlockMeta) : BlockMeta := { entry with undo := [] }

namespace Chain

variable {genesis : Block} {chain chain' chain'' : Chain} {block : Block}

omit [Crypto] [Features] in
/-- What the index says about a hash, undo data aside. -/
def recorded (chain : Chain) (hash : Hash256) : Option BlockMeta :=
  (chain.known.lookup hash).map BlockMeta.bare

/-- The chains differ at most in their orphans, their journals and the undo data of blocks that
are not active. -/
structure SameTree (chain chain' : Chain) : Prop extends SameActive chain chain' where
  recorded : ∀ hash, chain'.recorded hash = chain.recorded hash
  undo : ∀ hash ∈ chain.activeHashes, chain'.undoOf hash = chain.undoOf hash
  networkTime : chain'.networkTime = chain.networkTime

namespace SameTree

omit [Crypto] [Features] in
theorem refl (chain : Chain) : SameTree chain chain :=
  ⟨.refl chain, fun _ ↦ rfl, fun _ _ ↦ rfl, rfl⟩

omit [Crypto] [Features] in
theorem symm (h : SameTree chain chain') : SameTree chain' chain where
  blocks := h.blocks.symm
  activeHashes := h.activeHashes.symm
  utxo := h.utxo.symm
  totalWork := h.totalWork.symm
  recorded := fun hash ↦ (h.recorded hash).symm
  undo := fun hash hactive ↦ (h.undo hash (h.activeHashes ▸ hactive)).symm
  networkTime := h.networkTime.symm

omit [Crypto] [Features] in
theorem trans (h : SameTree chain chain') (h' : SameTree chain' chain'') :
    SameTree chain chain'' where
  blocks := h'.blocks.trans h.blocks
  activeHashes := h'.activeHashes.trans h.activeHashes
  utxo := h'.utxo.trans h.utxo
  totalWork := h'.totalWork.trans h.totalWork
  recorded := fun hash ↦ (h'.recorded hash).trans (h.recorded hash)
  undo := fun hash hactive ↦
    (h'.undo hash (h.activeHashes.symm ▸ hactive)).trans (h.undo hash hactive)
  networkTime := h'.networkTime.trans h.networkTime

omit [Crypto] [Features] in
/-- The orphans and the event journals do not matter. -/
theorem pooled (h : SameTree chain chain') (orphans orphans' : OrphanMap) (seq seq' : ℕ)
    (journal journal' : ChainEventJournal) : SameTree
      { chain with orphans := orphans, orphanReceiveSeq := seq, eventJournal := journal }
      { chain' with orphans := orphans', orphanReceiveSeq := seq', eventJournal := journal' } :=
  ⟨⟨h.blocks, h.activeHashes, h.utxo, h.totalWork⟩, h.recorded, h.undo, h.networkTime⟩

/-! ## Reading -/

omit [Crypto] [Features] in
theorem lookup_eq_none_iff (h : SameTree chain chain') (hash : Hash256) :
    chain'.known.lookup hash = none ↔ chain.known.lookup hash = none := by
  have hsame := h.recorded hash
  rw [Chain.recorded, Chain.recorded] at hsame
  rw [← Option.map_eq_none_iff (f := BlockMeta.bare), hsame, Option.map_eq_none_iff]

omit [Crypto] [Features] in
theorem entry_eq (h : SameTree chain chain') {hash : Hash256} {entry entry' : BlockMeta}
    (hentry : chain.known.lookup hash = some entry)
    (hentry' : chain'.known.lookup hash = some entry') :
    entry'.block = entry.block ∧ entry'.height = entry.height ∧ entry'.work = entry.work := by
  have hsame := h.recorded hash
  rw [Chain.recorded, Chain.recorded, hentry, hentry'] at hsame
  have hbare : entry'.bare = entry.bare := Option.some.inj hsame
  exact BlockMeta.mk.inj hbare |>.imp_right fun hrest ↦ ⟨hrest.1, hrest.2.1⟩

omit [Crypto] [Features] in
theorem exists_entry (h : SameTree chain chain') {hash : Hash256} {entry : BlockMeta}
    (hentry : chain.known.lookup hash = some entry) :
    ∃ entry', chain'.known.lookup hash = some entry' ∧ entry'.block = entry.block ∧
      entry'.height = entry.height ∧ entry'.work = entry.work := by
  have hsome : chain'.known.lookup hash ≠ none := fun hnone ↦ by
    rw [(h.lookup_eq_none_iff hash).mp hnone] at hentry
    cases hentry
  obtain ⟨entry', hentry'⟩ := Option.ne_none_iff_exists'.mp hsome
  exact ⟨entry', hentry', h.entry_eq hentry hentry'⟩

omit [Crypto] [Features] in
/-- Whatever is read from an entry besides its undo data is the same. -/
theorem map_eq (h : SameTree chain chain') {α : Type} (read : BlockMeta → α)
    (hread : ∀ entry, read entry.bare = read entry) (hash : Hash256) :
    (chain'.known.lookup hash).map read = (chain.known.lookup hash).map read := by
  have hbare : ∀ found : Option BlockMeta, found.map read = (found.map BlockMeta.bare).map read :=
    fun found ↦ by
      rw [Option.map_map]
      exact congrArg (found.map ·) (funext fun entry ↦ (hread entry).symm)
  have hsame := h.recorded hash
  rw [Chain.recorded, Chain.recorded] at hsame
  rw [hbare, hsame, ← hbare]

omit [Features] in
theorem tipHash_eq (h : SameTree chain chain') : chain'.tipHash = chain.tipHash := by
  rw [tipHash, tipHash, h.blocks]

omit [Crypto] [Features] in
theorem height_eq (h : SameTree chain chain') : chain'.height = chain.height := by
  rw [height, height, h.blocks]

omit [Crypto] [Features] in
theorem parentWork_eq (h : SameTree chain chain') (block : Block) :
    chain'.parentWork block = chain.parentWork block := by
  rw [parentWork, parentWork, h.map_eq BlockMeta.work fun _ ↦ rfl]

omit [Crypto] [Features] in
theorem pastTimes_eq (h : SameTree chain chain') (n : ℕ) (hash : Hash256) :
    chain'.pastTimes n hash = chain.pastTimes n hash := by
  induction n generalizing hash with
  | zero => rfl
  | succ n ih =>
      rw [pastTimes, pastTimes]
      cases hentry : chain.known.lookup hash with
      | none => rw [(h.lookup_eq_none_iff hash).mpr hentry]
      | some entry =>
          obtain ⟨entry', hentry', hblock, -⟩ := h.exists_entry hentry
          rw [hentry']
          simp only [ih, hblock]

omit [Crypto] in
theorem expectedBits_eq (h : SameTree chain chain') (height : ℕ) (bits : UInt32) :
    chain'.expectedBits height bits = chain.expectedBits height bits := by
  rw [expectedBits, expectedBits, h.blocks]

theorem validate_eq (h : SameTree chain chain') (block : Block) (parent : Option Block)
    (parentHash : Option Hash256) (height : ℕ) :
    chain'.validateBlockForParent block parent parentHash height =
      chain.validateBlockForParent block parent parentHash height := by
  unfold validateBlockForParent validateBlockHeaderForParent medianPastTimeBefore
  rw [h.expectedBits_eq, h.networkTime, h.utxo]
  simp only [h.pastTimes_eq]

omit [Crypto] [Features] in
theorem collectForkPath_eq (h : SameTree chain chain') (block : Block) :
    chain'.collectForkPath block = chain.collectForkPath block := by
  have hkeys : chain'.known.keys = chain.known.keys := by
    ext hash
    rw [Finmap.mem_keys, Finmap.mem_keys, ← Finmap.lookup_isSome, ← Finmap.lookup_isSome,
      Option.isSome_iff_ne_none, Option.isSome_iff_ne_none, ne_eq, ne_eq, h.lookup_eq_none_iff]
  have hloop : ∀ (fuel : ℕ) (tip : Block) (path : List Block),
      collectForkPathLoop chain' fuel tip path = collectForkPathLoop chain fuel tip path := by
    intro fuel
    induction fuel with
    | zero => exact fun _ _ ↦ rfl
    | succ fuel ih =>
        intro tip path
        rw [collectForkPathLoop, collectForkPathLoop, h.activeHashes]
        cases hentry : chain.known.lookup tip.header.prevBlockhash with
        | none => rw [(h.lookup_eq_none_iff _).mpr hentry]
        | some entry =>
            obtain ⟨entry', hentry', hblock, -⟩ := h.exists_entry hentry
            rw [hentry']
            simp only [ih, hblock]
  rw [collectForkPath, collectForkPath, hkeys, hloop]

omit [Features] in
theorem indexed (h : SameTree chain chain') (hindexed : Indexed genesis chain) :
    Indexed genesis chain' where
  head := h.blocks ▸ hindexed.head
  linked := h.blocks ▸ hindexed.linked
  active_iff := by
    rw [h.blocks, h.activeHashes]
    exact hindexed.active_iff
  active_known := by
    intro i b hi
    obtain ⟨entry, hentry, hblock, hheight⟩ := hindexed.active_known i b (h.blocks ▸ hi)
    obtain ⟨entry', hentry', hblock', hheight', -⟩ := h.exists_entry hentry
    exact ⟨entry', hentry', hblock'.trans hblock, hheight'.trans hheight⟩
  known_hash := by
    intro hash entry' hentry'
    obtain ⟨entry, hentry, hblock, -⟩ := h.symm.exists_entry hentry'
    rw [← hblock]
    exact hindexed.known_hash hash entry hentry
  known_parent := by
    intro hash entry' hentry'
    obtain ⟨entry, hentry, hblock, hheight, -⟩ := h.symm.exists_entry hentry'
    rcases hindexed.known_parent hash entry hentry with hgen | ⟨parent, hparent, hstep⟩
    · exact Or.inl hgen
    · obtain ⟨parent', hparent', -, hparentHeight, -⟩ := h.exists_entry hparent
      refine Or.inr ⟨parent', hblock ▸ hparent', ?_⟩
      rw [← hheight, hstep, hparentHeight]

omit [Features] in
theorem forkPoint (h : SameTree chain chain') {path keep post : List Block} {fork : Block}
    (hf : ForkPoint chain block path keep fork post) :
    ForkPoint chain' block path keep fork post where
  collected := (h.collectForkPath_eq block).trans hf.collected
  split := h.blocks.trans hf.split
  path := by
    obtain ⟨stored, hpath, hstored⟩ := hf.path.last
    refine ⟨h.activeHashes ▸ hf.path.active, hf.path.linked, stored, hpath, fun b hb ↦ ?_⟩
    obtain ⟨hinactive, entry, hentry, hblock⟩ := hstored b hb
    obtain ⟨entry', hentry', hsame, -⟩ := h.exists_entry hentry
    exact ⟨h.activeHashes ▸ hinactive, entry', hentry', hsame.trans hblock⟩

/-! ## Moving the tip -/

omit [Crypto] [Features] in
theorem recorded_insert {hash : Hash256} {entry : BlockMeta}
    (hknown : chain'.known = Finmap.insert hash entry chain.known) (key : Hash256) :
    chain'.recorded key = if key = hash then some entry.bare else chain.recorded key := by
  rw [Chain.recorded, hknown, HashMap.lookup_insert_ite]
  split <;> rfl

omit [Crypto] [Features] in
theorem undoOf_insert {hash : Hash256} {entry : BlockMeta}
    (hknown : chain'.known = Finmap.insert hash entry chain.known) (key : Hash256) :
    chain'.undoOf key = if key = hash then entry.undo else chain.undoOf key := by
  rw [undoOf, hknown, HashMap.lookup_insert_ite]
  split <;> rfl

omit [Features] in
/-- The same block is pushed with the same undo data. -/
theorem pushTip (h : SameTree chain chain') (block : Block) (height : ℕ) (work : ChainWork) :
    SameTree (chain.pushTip block height work) (chain'.pushTip block height work) ∧
      ∀ hash, chain'.undoOf hash = chain.undoOf hash →
        (chain'.pushTip block height work).undoOf hash =
          (chain.pushTip block height work).undoOf hash := by
  have hknown : ∀ c : Chain, c.utxo = chain.utxo → (c.pushTip block height work).known =
      Finmap.insert block.hash
        ⟨block, height, work, chain.utxo.transactionUndos block.transactions⟩ c.known :=
    fun c hc ↦ by rw [Chain.pushTip, hc]
  have hundo : ∀ hash, chain'.undoOf hash = chain.undoOf hash ∨ hash = block.hash →
      (chain'.pushTip block height work).undoOf hash =
        (chain.pushTip block height work).undoOf hash := by
    intro hash hcases
    rw [undoOf_insert (hknown chain' h.utxo), undoOf_insert (hknown chain rfl)]
    split
    · rfl
    · exact hcases.resolve_right ‹_›
  refine ⟨⟨⟨?_, ?_, ?_, h.totalWork⟩, fun hash ↦ ?_, fun hash hactive ↦ hundo hash ?_,
    h.networkTime⟩, fun hash hsame ↦ hundo hash (Or.inl hsame)⟩
  · rw [pushTip_blocks, pushTip_blocks, h.blocks]
  · simp only [Chain.pushTip, h.activeHashes]
  · rw [pushTip_utxo, pushTip_utxo, h.utxo]
  · rw [recorded_insert (hknown chain' h.utxo), recorded_insert (hknown chain rfl), h.recorded]
  · rcases Finset.mem_insert.mp hactive with heq | hold
    · exact Or.inr heq
    · exact Or.inl (h.undo hash hold)

omit [Features] in
theorem popTip (h : SameTree chain chain') (hundo : chain'.undoOf block.hash =
    chain.undoOf block.hash) : SameTree (chain.popTip block) (chain'.popTip block) where
  blocks := by rw [popTip_blocks, popTip_blocks, h.blocks]
  activeHashes := by simp only [Chain.popTip, h.activeHashes]
  utxo := by simp only [Chain.popTip, hundo, h.utxo]
  totalWork := by
    simp only [Chain.popTip, h.blocks]
    cases chain.blocks.dropLast.getLast? with
    | none => rfl
    | some tip =>
        exact congrArg (Option.getD · _) (h.map_eq BlockMeta.work (fun _ ↦ rfl) tip.hash)
  recorded := h.recorded
  undo := fun hash hactive ↦ h.undo hash (Finset.mem_of_mem_erase hactive)
  networkTime := h.networkTime

omit [Features] in
theorem rewind (h : SameTree chain chain') {post : List Block}
    (hundo : ∀ b ∈ post, chain'.undoOf b.hash = chain.undoOf b.hash) :
    SameTree (Chain.rewind post chain) (Chain.rewind post chain') := by
  induction post with
  | nil => exact h
  | cons b post ih =>
      apply (ih fun b hb ↦ hundo b (List.mem_cons_of_mem _ hb)).popTip
      rw [undoOf, undoOf, rewind_known, rewind_known]
      exact hundo b List.mem_cons_self

/-- A fork path connects on both or fails with the same error. -/
theorem connectForkPath (h : SameTree chain chain') (path : List Block) :
    (Chain.connectForkPath path chain').1 = (Chain.connectForkPath path chain).1 ∧
      SameTree (Chain.connectForkPath path chain).2 (Chain.connectForkPath path chain').2 ∧
        ∀ hash, chain'.undoOf hash = chain.undoOf hash →
          (Chain.connectForkPath path chain').2.undoOf hash =
            (Chain.connectForkPath path chain).2.undoOf hash := by
  induction path generalizing chain chain' with
  | nil => exact ⟨rfl, h, fun _ hsame ↦ hsame⟩
  | cons block rest ih =>
      simp only [Chain.connectForkPath, h.validate_eq, h.blocks, h.height_eq, h.parentWork_eq]
      cases chain.validateBlockForParent block chain.blocks.getLast?
          (some block.header.prevBlockhash) (chain.height + 1) with
      | error stop => exact ⟨rfl, h, fun _ hsame ↦ hsame⟩
      | ok _ =>
          simp only
          cases blockWork block.header.bits with
          | error e =>
              simp only [h.utxo]
              exact ⟨trivial, ⟨⟨rfl, h.activeHashes, rfl, h.totalWork⟩, h.recorded, h.undo,
                h.networkTime⟩, fun _ hsame ↦ hsame⟩
          | ok work =>
              obtain ⟨hpush, hundo⟩ := h.pushTip block (chain.height + 1)
                ((chain.parentWork block).add work)
              obtain ⟨hresult, hdone, hkept⟩ := ih hpush
              exact ⟨hresult, hdone, fun hash hsame ↦ hkept hash (hundo hash hsame)⟩

/-! ## Placing -/

/-- An admitted block is placed alike. -/
theorem place (h : SameTree chain chain') (hindexed : Indexed genesis chain)
    {parent parent' : BlockMeta} {work : ChainWork}
    (hparent : chain.known.lookup block.header.prevBlockhash = some parent)
    (hparent' : chain'.known.lookup block.header.prevBlockhash = some parent') :
    (chain'.place block parent' work).1 = (chain.place block parent work).1 ∧
      SameTree (chain.place block parent work).2 (chain'.place block parent' work).2 := by
  obtain ⟨-, hheight, hwork⟩ := h.entry_eq hparent hparent'
  by_cases htip : block.header.prevBlockhash = chain.tipHash
  · rw [place_extended htip, place_extended (htip.trans h.tipHash_eq.symm), extendTip, extendTip,
      hheight, hwork]
    have hpush := (h.pushTip block (parent.height + 1) (parent.work.add work)).1
    exact ⟨rfl, ⟨hpush.blocks, hpush.activeHashes, hpush.utxo, rfl⟩, hpush.recorded, hpush.undo,
      hpush.networkTime⟩
  · have htip' : block.header.prevBlockhash ≠ chain'.tipHash := h.tipHash_eq ▸ htip
    by_cases hlighter : (parent.work.add work).le chain.totalWork
    · have hknown : ∀ c : Chain, (c.storeSide block parent work).known =
          Finmap.insert block.hash ⟨block, parent.height + 1, parent.work.add work, []⟩ c.known :=
        fun _ ↦ rfl
      have hstore : chain'.storeSide block parent' work = chain'.storeSide block parent work := by
        rw [storeSide, storeSide, hheight, hwork]
      rw [place_side htip hlighter,
        place_side htip' (by rw [hwork, h.totalWork]; exact hlighter), hheight, hstore]
      refine ⟨rfl, ⟨h.blocks, h.activeHashes, h.utxo, h.totalWork⟩, fun hash ↦ ?_,
        fun hash hactive ↦ ?_, h.networkTime⟩
      · rw [recorded_insert (hknown chain'), recorded_insert (hknown chain), h.recorded]
      · rw [undoOf_insert (hknown chain'), undoOf_insert (hknown chain), h.undo hash hactive]
    · obtain ⟨path, keep, fork, post, hf⟩ := hindexed.exists_forkPoint hparent
      have hactive : ∀ b ∈ post, b.hash ∈ chain.activeHashes := fun b hb ↦
        (hindexed.active_iff _).mpr ⟨b, by simp [hf.split, hb], rfl⟩
      have hrewound := h.rewind fun b hb ↦ h.undo b.hash (hactive b hb)
      obtain ⟨hresult, hdone, hkept⟩ := hrewound.connectForkPath path
      rw [place_reorg hindexed hf htip hlighter, place_reorg (h.indexed hindexed) (h.forkPoint hf)
        htip' (by rw [hwork, h.totalWork]; exact hlighter), hwork]
      generalize Chain.connectForkPath path (Chain.rewind post chain) = outcome at *
      generalize Chain.connectForkPath path (Chain.rewind post chain') = outcome' at *
      obtain ⟨result, done⟩ := outcome
      obtain ⟨result', done'⟩ := outcome'
      obtain rfl : result' = result := hresult
      cases result' with
      | error stop =>
          refine ⟨rfl, ⟨h.blocks, h.activeHashes, h.utxo, h.totalWork⟩, hdone.recorded,
            fun hash hold ↦ hkept hash ?_, hdone.networkTime⟩
          rw [undoOf, undoOf, rewind_known, rewind_known]
          exact h.undo hash hold
      | ok _ =>
          have hnewTip : done'.tipHash = done.tipHash := hdone.tipHash_eq
          simp only [h.tipHash_eq, hnewTip]
          exact ⟨trivial, ⟨hdone.blocks, hdone.activeHashes, hdone.utxo, rfl⟩, hdone.recorded,
            hdone.undo, hdone.networkTime⟩

end SameTree

end Chain

end Bitrst
