import Bitrst.ChainCalls

/-!
# Coherence of the chain state

Every way of placing a block keeps the indices coherent: an extension and a
side block by one move, a reorganisation by a rewind and a sequence of pushes,
a failed reorganisation because the blocks it re-indexed were not active.
-/

namespace Bitrst

open Support

variable [Crypto] [Features]

namespace Chain

variable {genesis : Block} {chain : Chain}

/-! ## The index after a block was placed -/

theorem Admitted.notMem_active (h : Indexed genesis chain) {block : Block} {parent : BlockMeta}
    {work : ChainWork} (hadm : Admitted chain block parent work) :
    block.hash ∉ chain.activeHashes := by
  intro hactive
  obtain ⟨entry, hentry, -⟩ := h.active_lookup hactive
  rw [hadm.unknown] at hentry
  cases hentry

/-- The parent of a block on the tip is the last active block. -/
theorem Admitted.height_eq (h : Indexed genesis chain) {block : Block} {parent : BlockMeta}
    {work : ChainWork} (hadm : Admitted chain block parent work)
    (htip : block.header.prevBlockhash = chain.tipHash) :
    parent.height + 1 = chain.blocks.length := by
  obtain ⟨keep, tip, entry, hblocks, htipHash, hentry, -, hheight⟩ := h.exists_tip
  have hparent := hadm.parent_known
  rw [htip, htipHash, hentry] at hparent
  rw [← Option.some.inj hparent, hheight, hblocks, List.length_append, List.length_singleton]

theorem extendTip_indexed (h : Indexed genesis chain) {block : Block} {parent : BlockMeta}
    {work : ChainWork} (hadm : Admitted chain block parent work)
    (htip : block.header.prevBlockhash = chain.tipHash) :
    Indexed genesis (chain.extendTip block parent work) := by
  have hpush : Indexed.Pushable chain block := ⟨htip, by simp [hadm.unknown]⟩
  have hpushed := h.pushTip hpush (parent.work.add work)
  rw [← hadm.height_eq h htip] at hpushed
  exact hpushed.congr rfl rfl rfl

omit [Features] in
@[simp] theorem storeSide_blocks (chain : Chain) (block : Block) (parent : BlockMeta)
    (work : ChainWork) : (chain.storeSide block parent work).blocks = chain.blocks := rfl

omit [Features] in
theorem storeSide_known (chain : Chain) (block : Block) (parent : BlockMeta) (work : ChainWork)
    (hash : Hash256) :
    (chain.storeSide block parent work).known.lookup hash =
      if hash = block.hash then some ⟨block, parent.height + 1, parent.work.add work, []⟩
      else chain.known.lookup hash :=
  HashMap.lookup_insert_ite _ _ _ _

theorem storeSide_indexed (h : Indexed genesis chain) {block : Block} {parent : BlockMeta}
    {work : ChainWork} (hadm : Admitted chain block parent work) :
    Indexed genesis (chain.storeSide block parent work) where
  head := h.head
  linked := h.linked
  active_iff := h.active_iff
  active_known := by
    intro i b hi
    obtain ⟨entry, hentry, hblock, hheight⟩ := h.active_known i b hi
    refine ⟨entry, ?_, hblock, hheight⟩
    rw [storeSide_known, if_neg, hentry]
    intro heq
    rw [heq, hadm.unknown] at hentry
    cases hentry
  known_hash := by
    intro hash entry hentry
    rw [storeSide_known] at hentry
    split at hentry
    · obtain rfl := Option.some.inj hentry
      exact (‹hash = block.hash›).symm
    · exact h.known_hash hash entry hentry
  known_parent := by
    have hkeep : ∀ key parent, chain.known.lookup key = some parent →
        (chain.storeSide block parent work).known.lookup key = some parent := by
      intro key found hfound
      rw [storeSide_known, if_neg, hfound]
      intro heq
      rw [heq, hadm.unknown] at hfound
      cases hfound
    intro hash entry hentry
    rw [storeSide_known] at hentry
    split at hentry
    · obtain rfl := Option.some.inj hentry
      refine Or.inr ⟨parent, ?_, rfl⟩
      rw [storeSide_known, if_neg, hadm.parent_known]
      intro heq
      have hparent := hadm.parent_known
      rw [heq, hadm.unknown] at hparent
      cases hparent
    · rcases h.known_parent hash entry hentry with hgen | ⟨found, hfound, hheight⟩
      · exact Or.inl hgen
      · refine Or.inr ⟨found, ?_, hheight⟩
        rw [storeSide_known, if_neg, hfound]
        intro heq
        rw [heq, hadm.unknown] at hfound
        cases hfound

/-- Connecting a fork path keeps the index coherent. -/
theorem ForkPoint.connects_indexed (h : Indexed genesis chain) {block : Block}
    {path keep post front back : List Block} {fork : Block} {reached : Chain}
    (hf : ForkPoint chain block path keep fork post)
    (hunknown : chain.known.lookup block.hash = none) (hparts : path = front ++ back)
    (hconnects : ConnectsPath front (Chain.rewind post chain) reached) :
    Indexed genesis reached := by
  have hready : PathReady genesis (Chain.rewind post chain) front :=
    PathReady.front (hparts ▸ hf.pathReady h hunknown)
  exact (PathReady.induction_on_path (fun _ ↦ True) (fun _ _ _ _ _ _ _ _ _ ↦ trivial) hconnects
    (hf.rewind_indexed h) hready trivial).1

/-- The rollback of a failed reorganisation keeps what it re-indexed, none of it active. -/
theorem restoreActive_indexed (h : Indexed genesis chain) {block : Block}
    {path keep post front back : List Block} {fork : Block} {reached : Chain}
    (hf : ForkPoint chain block path keep fork post)
    (hunknown : chain.known.lookup block.hash = none) (hparts : path = front ++ back)
    (hconnects : ConnectsPath front (Chain.rewind post chain) reached) :
    Indexed genesis (chain.restoreActive reached) where
  head := h.head
  linked := h.linked
  active_iff := h.active_iff
  active_known := by
    intro i b hi
    obtain ⟨entry, hentry, hblock, hheight⟩ := h.active_known i b hi
    refine ⟨entry, ?_, hblock, hheight⟩
    change reached.known.lookup b.hash = some entry
    rw [hconnects.known_eq, rewind_known, hentry]
    intro b' hb' heq
    apply hf.notMem_active h hunknown (b := b') (hparts ▸ List.mem_append_left _ hb')
    exact (h.active_iff _).mpr ⟨b, List.mem_of_getElem? hi, heq.symm⟩
  known_hash := (hf.connects_indexed h hunknown hparts hconnects).known_hash
  known_parent := (hf.connects_indexed h hunknown hparts hconnects).known_parent

/-- Whatever way a block is placed, the index stays coherent. -/
theorem Placement.indexed (h : Indexed genesis chain) {block : Block} {parent : BlockMeta}
    {work : ChainWork} (hadm : Admitted chain block parent work)
    {outcome : ChainResult ConnectResult × Chain}
    (hplace : Placement chain block parent work outcome) : Indexed genesis outcome.2 := by
  cases hplace with
  | extended tip => exact extendTip_indexed h hadm tip
  | side _ _ => exact storeSide_indexed h hadm
  | reorganized _ _ forks connects =>
      have hdone := forks.connects_indexed h hadm.unknown (List.append_nil _).symm connects
      exact hdone.congr rfl rfl rfl
  | failed _ _ _ _ forks _ parts connects =>
      exact (restoreActive_indexed h forks hadm.unknown parts connects).congr rfl rfl rfl

theorem ConnectsPath.known_cases {path : List Block} {done : Chain}
    (hconnects : ConnectsPath path chain done) {hash : Hash256} {entry : BlockMeta}
    (hentry : done.known.lookup hash = some entry) :
    entry.block ∈ path ∧ entry.block.hash = hash ∨ chain.known.lookup hash = some entry := by
  induction hconnects with
  | nil => exact Or.inr hentry
  | @cons chain done block rest work _ _ ih =>
      rcases ih hentry with ⟨hmem, hhash⟩ | hbelow
      · exact Or.inl ⟨List.mem_cons_of_mem _ hmem, hhash⟩
      · rw [pushForkBlock, pushTip_known] at hbelow
        split at hbelow
        · rename_i heq
          obtain rfl := Option.some.inj hbelow
          exact Or.inl ⟨List.mem_cons_self, heq.symm⟩
        · exact Or.inr hbelow

/-- Placing a block indexes no other block than it. -/
theorem Placement.known_cases {block : Block} {parent : BlockMeta} {work : ChainWork}
    {outcome : ChainResult ConnectResult × Chain}
    (hplace : Placement chain block parent work outcome) {hash : Hash256} {entry : BlockMeta}
    (hentry : outcome.2.known.lookup hash = some entry) :
    entry.block = block ∨
      ∃ old, chain.known.lookup hash = some old ∧ old.block = entry.block := by
  have hpath : ∀ {path front back keep post : List Block} {fork : Block} {done : Chain},
      ForkPoint chain block path keep fork post → path = front ++ back →
      ConnectsPath front (rewind post chain) done → done.known.lookup hash = some entry →
      entry.block = block ∨
        ∃ old, chain.known.lookup hash = some old ∧ old.block = entry.block := by
    intro path front back keep post fork done hforks hparts hconnects hdone
    rcases hconnects.known_cases hdone with ⟨hmem, hhash⟩ | hbelow
    · rcases hforks.mem_path_cases (hparts ▸ List.mem_append_left _ hmem) with heq | ⟨-, old⟩
      · exact Or.inl heq
      · rw [hhash] at old
        exact Or.inr old
    · rw [rewind_known] at hbelow
      exact Or.inr ⟨entry, hbelow, rfl⟩
  cases hplace with
  | extended _ =>
      change (chain.pushTip block _ _).known.lookup hash = _ at hentry
      rw [pushTip_known] at hentry
      split at hentry
      · obtain rfl := Option.some.inj hentry
        exact Or.inl rfl
      · exact Or.inr ⟨entry, hentry, rfl⟩
  | side _ _ =>
      rw [storeSide_known] at hentry
      split at hentry
      · obtain rfl := Option.some.inj hentry
        exact Or.inl rfl
      · exact Or.inr ⟨entry, hentry, rfl⟩
  | reorganized _ _ forks connects => exact hpath forks (List.append_nil _).symm connects hentry
  | failed _ _ _ _ forks _ parts connects => exact hpath forks parts connects hentry

/-! ## Known blocks and orphans stay apart -/

/-- The indices of the active chain are coherent and no orphan is known. -/
structure Coherent (genesis : Block) (chain : Chain) : Prop where
  indexed : Indexed genesis chain
  orphan_unknown : ∀ hash entry, chain.orphans.lookup hash = some entry →
    chain.known.lookup hash = none

omit [Features] in
theorem Coherent.congr {chain' : Chain} (h : Coherent genesis chain)
    (hblocks : chain'.blocks = chain.blocks)
    (hactive : chain'.activeHashes = chain.activeHashes) (hknown : chain'.known = chain.known)
    (horphans : chain'.orphans = chain.orphans) : Coherent genesis chain' where
  indexed := h.indexed.congr hblocks hactive hknown
  orphan_unknown := by
    rw [horphans, hknown]
    exact h.orphan_unknown

/-- A fork path adds no orphan to the index. -/
theorem ForkPoint.connects_orphan_unknown (h : Coherent genesis chain) {block : Block}
    {parent : BlockMeta} {work : ChainWork} {path keep post front back : List Block}
    {fork : Block} {reached : Chain} (hadm : Admitted chain block parent work)
    (hf : ForkPoint chain block path keep fork post) (hparts : path = front ++ back)
    (hconnects : ConnectsPath front (Chain.rewind post chain) reached) {hash : Hash256}
    {entry : OrphanEntry} (horphan : chain.orphans.lookup hash = some entry) :
    reached.known.lookup hash = none := by
  have hunknown := h.orphan_unknown hash entry horphan
  rw [hconnects.known_eq, rewind_known, hunknown]
  rintro b hb rfl
  rcases hf.mem_path_cases (hparts ▸ List.mem_append_left _ hb) with rfl | ⟨-, found, hfound, -⟩
  · rw [hadm.not_orphan] at horphan
    cases horphan
  · rw [hunknown] at hfound
    cases hfound

theorem Placement.orphan_unknown (h : Coherent genesis chain) {block : Block}
    {parent : BlockMeta} {work : ChainWork} (hadm : Admitted chain block parent work)
    {outcome : ChainResult ConnectResult × Chain}
    (hplace : Placement chain block parent work outcome) {hash : Hash256} {entry : OrphanEntry}
    (horphan : outcome.2.orphans.lookup hash = some entry) :
    outcome.2.known.lookup hash = none := by
  have hne : chain.orphans.lookup hash = some entry → hash ≠ block.hash := by
    rintro hold rfl
    rw [hadm.not_orphan] at hold
    cases hold
  cases hplace with
  | extended tip =>
      change (chain.pushTip block _ _).known.lookup hash = none
      rw [pushTip_known, if_neg (hne horphan)]
      exact h.orphan_unknown hash entry horphan
  | side _ _ =>
      rw [storeSide_known, if_neg (hne horphan)]
      exact h.orphan_unknown hash entry horphan
  | reorganized _ _ forks connects =>
      rw [connects.orphans_eq, rewind_orphans] at horphan
      exact forks.connects_orphan_unknown h hadm (List.append_nil _).symm connects horphan
  | failed _ _ _ _ forks _ parts connects =>
      rw [connects.orphans_eq, rewind_orphans] at horphan
      exact forks.connects_orphan_unknown h hadm parts connects horphan

theorem Placement.coherent (h : Coherent genesis chain) {block : Block} {parent : BlockMeta}
    {work : ChainWork} (hadm : Admitted chain block parent work)
    {outcome : ChainResult ConnectResult × Chain}
    (hplace : Placement chain block parent work outcome) : Coherent genesis outcome.2 where
  indexed := hplace.indexed h.indexed hadm
  orphan_unknown := fun _ _ horphan ↦ hplace.orphan_unknown h hadm horphan

/-! ## Orphans -/

omit [Crypto] [Features] in
theorem evictOldestOrphan_spec (order : OrphanOrder) (chain : Chain) :
    ∃ orphans journal, chain.evictOldestOrphan order =
        { chain with orphans := orphans, eventJournal := journal } ∧
      ∀ hash entry, AList.lookup hash orphans = some entry →
        AList.lookup hash chain.orphans = some entry := by
  unfold evictOldestOrphan
  split
  · exact ⟨chain.orphans, chain.eventJournal, rfl, fun _ _ h ↦ h⟩
  · rename_i evicted _
    refine ⟨_, _, rfl, ?_⟩
    intro hash entry h
    by_cases heq : hash = evicted.1
    · rw [heq, AList.lookup_erase] at h
      cases h
    · rwa [AList.lookup_erase_ne heq] at h

omit [Features] in
/-- Storing an orphan changes the pool, its counter and the events; the pool
holds the new block and blocks it held before. -/
theorem insertOrphan_spec (order : OrphanOrder) (chain : Chain) (block : Block) :
    ∃ orphans seq journal, chain.insertOrphan order block =
        { chain with orphans := orphans, orphanReceiveSeq := seq, eventJournal := journal } ∧
      ∀ hash entry, AList.lookup hash orphans = some entry →
        hash = block.hash ∧ entry.block = block ∨
          AList.lookup hash chain.orphans = some entry := by
  have hinsert : ∀ (pool : OrphanMap) (seq : ℕ) (hash : Hash256) (entry : OrphanEntry),
      AList.lookup hash (pool.insert block.hash ⟨block, seq⟩) = some entry →
        hash = block.hash ∧ entry.block = block ∨ AList.lookup hash pool = some entry := by
    intro pool seq hash entry h
    by_cases heq : hash = block.hash
    · rw [heq, AList.lookup_insert] at h
      exact Or.inl ⟨heq, by rw [← Option.some.inj h]⟩
    · rw [AList.lookup_insert_ne heq] at h
      exact Or.inr h
  unfold insertOrphan
  split
  · obtain ⟨pool, journal, hevict, hpool⟩ := evictOldestOrphan_spec order chain
    rw [hevict]
    refine ⟨_, _, _, rfl, ?_⟩
    intro hash entry h
    exact (hinsert pool _ hash entry h).imp_right (hpool hash entry)
  · exact ⟨_, _, _, rfl, hinsert chain.orphans _⟩

omit [Features] in
theorem insertOrphan_coherent (h : Coherent genesis chain) (order : OrphanOrder) {block : Block}
    (hunknown : chain.known.lookup block.hash = none) :
    Coherent genesis (chain.insertOrphan order block) := by
  obtain ⟨orphans, seq, journal, heq, hpool⟩ := insertOrphan_spec order chain block
  rw [heq]
  refine ⟨h.indexed.congr rfl rfl rfl, ?_⟩
  intro hash entry hentry
  rcases hpool hash entry hentry with ⟨rfl, -⟩ | hold
  · exact hunknown
  · exact h.orphan_unknown hash entry hold

omit [Features] in
theorem FewerOrphans.coherent {chain' : Chain} (h : Coherent genesis chain)
    (hfewer : FewerOrphans chain chain') : Coherent genesis chain' := by
  obtain ⟨orphans, rfl, hpool⟩ := hfewer
  exact ⟨h.indexed.congr rfl rfl rfl,
    fun hash entry hentry ↦ h.orphan_unknown hash entry (hpool hash entry hentry)⟩

/-! ## Runs -/

/-- The chain that `with_journal_capacities` starts from. -/
def blank (networkTime : UInt32) (capacity : ℕ) : Chain where
  blocks := []
  activeHashes := ∅
  known := ∅
  totalWork := ChainWork.zero
  utxo := ∅
  orphans := ∅
  orphanReceiveSeq := 0
  networkTime := networkTime
  store := ∅
  eventJournal := ChainEventJournal.withCapacity capacity
  disconnectedJournal := DisconnectedBlockJournal.withCapacity capacity

/-- A genesis chain consists of the genesis block. -/
theorem withJournalCapacities_spec {networkTime : UInt32} {capacity : ℕ}
    (h : withJournalCapacities genesis networkTime capacity = .ok chain) :
    ∃ work, blockWork genesis.header.bits = .ok work ∧
      chain = { (blank networkTime capacity).pushTip genesis 0 work with totalWork := work } := by
  unfold withJournalCapacities at h
  split at h
  · cases h
  · simp only at h
    split at h
    · cases h
    · split at h
      · cases h
      · split at h
        · cases h
        · rename_i work hwork
          exact ⟨work, hwork, (Except.ok.inj h).symm⟩

/-- The genesis block of a chain passed its checks. -/
theorem withJournalCapacities_checked {networkTime : UInt32} {capacity : ℕ}
    (h : withJournalCapacities genesis networkTime capacity = .ok chain) :
    validateBlockLimits genesis = .ok () ∧
      (blank networkTime capacity).validateBlockForParent genesis none none 0 = .ok () := by
  unfold withJournalCapacities at h
  split at h
  · cases h
  · simp only at h
    split at h
    · cases h
    · rename_i hlimits
      split at h
      · cases h
      · rename_i hvalid
        exact ⟨hlimits, hvalid⟩

/-- A genesis block that passes its checks makes a chain. -/
theorem withJournalCapacities_of_valid {networkTime : UInt32} {capacity : ℕ} {work : ChainWork}
    (htime : networkTime ≠ 0) (hlimits : validateBlockLimits genesis = .ok ())
    (hvalid : (blank networkTime capacity).validateBlockForParent genesis none none 0 = .ok ())
    (hwork : blockWork genesis.header.bits = .ok work) :
    withJournalCapacities genesis networkTime capacity =
      .ok { (blank networkTime capacity).pushTip genesis 0 work with totalWork := work } := by
  unfold blank at hvalid
  simp only [withJournalCapacities, if_neg htime, hlimits, hvalid, hwork]
  rfl

omit [Crypto] [Features] in
@[simp] theorem blank_known (networkTime : UInt32) (capacity : ℕ) (hash : Hash256) :
    (blank networkTime capacity).known.lookup hash = none := rfl

omit [Crypto] [Features] in
@[simp] theorem blank_blocks (networkTime : UInt32) (capacity : ℕ) :
    (blank networkTime capacity).blocks = [] := rfl

theorem withJournalCapacities_coherent {networkTime : UInt32} {capacity : ℕ}
    (h : withJournalCapacities genesis networkTime capacity = .ok chain) :
    Coherent genesis chain := by
  obtain ⟨work, -, rfl⟩ := withJournalCapacities_spec h
  refine ⟨⟨rfl, List.isChain_singleton _, ?_, ?_, ?_, ?_⟩, ?_⟩
  · intro hash
    simp [pushTip, blank, eq_comm]
  · intro i b hi
    have hb : i = 0 ∧ genesis = b := by
      simpa [List.getElem?_singleton] using hi
    obtain ⟨rfl, rfl⟩ := hb
    exact ⟨_, by rw [pushTip_known, if_pos rfl], rfl, rfl⟩
  · intro hash entry hentry
    rw [pushTip_known] at hentry
    split at hentry
    · obtain rfl := Option.some.inj hentry
      exact (‹hash = genesis.hash›).symm
    · simp at hentry
  · intro hash entry hentry
    rw [pushTip_known] at hentry
    split at hentry
    · exact Or.inl ‹hash = genesis.hash›
    · simp at hentry
  · intro hash entry hentry
    cases hentry

/-- One activation of `connect_block_inner` keeps coherence. -/
theorem connectAlone_coherent (h : Coherent genesis chain) (order : OrphanOrder)
    (block : Block) : Coherent genesis (connectAlone order block chain).2 := by
  rw [connectAlone_eq]
  cases hadm : chain.admission block with
  | error e => exact h
  | ok found =>
      cases found with
      | none => exact insertOrphan_coherent h order (admission_none_iff.mp hadm).2.1
      | some pair =>
          have hadmitted := admission_some_iff.mp hadm
          exact (place_placement h.indexed hadmitted).coherent h hadmitted

theorem ReachableWith.coherent {cond : Chain → Block → Prop}
    (h : ReachableWith cond genesis chain) : Coherent genesis chain :=
  h.invariant (Coherent genesis)
    (fun _ _ _ created ↦ withJournalCapacities_coherent created)
    (fun _ _ hc hfewer ↦ hfewer.coherent hc)
    (fun order _ block hc _ ↦ connectAlone_coherent hc order block)
    (fun _ _ hc ↦ hc.congr rfl rfl rfl rfl)
    (fun _ _ hc ↦ hc.congr rfl rfl rfl rfl)

/-- The indices of every reachable chain are coherent. -/
theorem reachable_index_coherent (h : Reachable genesis chain) :
    chain.blocks ≠ [] ∧ chain.blocks.head? = some genesis ∧
      (chain.blocks.IsChain fun parent child ↦ child.header.prevBlockhash = parent.hash) ∧
      (∀ hash, hash ∈ chain.activeHashes ↔ ∃ b ∈ chain.blocks, b.hash = hash) ∧
      (∀ i b, chain.blocks[i]? = some b → ∃ entry,
        chain.known.lookup b.hash = some entry ∧ entry.block = b ∧ entry.height = i) ∧
      (∀ hash entry, chain.known.lookup hash = some entry → hash ≠ genesis.hash →
        ∃ parent, chain.known.lookup entry.block.header.prevBlockhash = some parent ∧
          parent.height + 1 = entry.height) ∧
      ∀ hash, ¬ ((chain.known.lookup hash).isSome ∧ (chain.orphans.lookup hash).isSome) := by
  have hc := ReachableWith.coherent h
  refine ⟨hc.indexed.blocks_ne_nil, hc.indexed.head, hc.indexed.linked, hc.indexed.active_iff,
    hc.indexed.active_known, ?_, ?_⟩
  · intro hash entry hentry hne
    rcases hc.indexed.known_parent hash entry hentry with hgen | ⟨parent, hparent, hheight⟩
    · exact (hne hgen).elim
    · exact ⟨parent, hparent, hheight.symm⟩
  · rintro hash ⟨hknown, horphan⟩
    obtain ⟨entry, hentry⟩ := Option.isSome_iff_exists.mp horphan
    rw [hc.orphan_unknown hash entry hentry] at hknown
    cases hknown

end Chain

end Bitrst

/-! ## A short chain with a fork

Blocks of the lowest difficulty on one genesis block, with the digests that
SHA-256 gives them.  The public key and the signature are those of a key pair
on the curve, so a verifier accepts them for the digest that is signed.
-/

namespace Bitrst.Sample

open Support

def genesisHash : Hash256 := beVector 32
  0x9ce4862275c8259f48a0feb77da247494fe31b43669906a3c9eb0296853d8145

def firstHash : Hash256 := beVector 32
  0x195a19c53ca351b0b5d0cfc37eedf6fb84423fe1dda03725deb2de3e6b462c65

def sideHash : Hash256 := beVector 32
  0xb73e25c8c2c9994d67c3f4b61950cd3b5e336b2818671efb0fadc6fdcc682d28

def coinId0 : Hash256 := beVector 32
  0x8a005288263ed9c0ad6e57288b010bd75570fe7481262438f780d92414f6fe36

def coinId1 : Hash256 := beVector 32
  0x46c1733ee126b2b3ca399a7e8db1eb2d4cafbe5ce3c54e64204f6f4b6c73f2b9

def coinId2 : Hash256 := beVector 32
  0x23588650f82ad3aae0121b8696d36993ef15550ca54e2b4c4cb369a418d6e90b

def coinId3 : Hash256 := beVector 32
  0xb4d17322a9188c33f6b7165cf1793e42bd6557e605a279992d069012ea606645

def payingCoinId : Hash256 := beVector 32
  0xc34de11e645ab8648d42e67a149c27f243d1d4af0377c1b0d9f158d5614dab65

def spendsSideRoot : Hash256 := beVector 32
  0xcfe385bedcce76c79d58d03d7f1ffe83d1e21d4363f1b40cae131c27f96f74ef

def spendsFirstRoot : Hash256 := beVector 32
  0x723eebe58d282a7fff123716b4541f35152e521c8e7bb361a048ed825c7a0862

def spendsGenesisRoot : Hash256 := beVector 32
  0x5729b03551377cd2ca2a1fa583e0da32febc3d673876f3bd966956e64504d2fc

def payingRoot : Hash256 := beVector 32
  0x467f7cfc5c4a7e3aad72dc329dc16456d653564ed00039ab30a5e9149b6b3916

def easyBits : UInt32 := 0x207fffff

def easyWork : ChainWork := ⟨2 ::ᵥ List.Vector.replicate 31 0⟩

theorem blockWork_easyBits : blockWork easyBits = .ok easyWork := by decide +kernel

def header (prev root : Hash256) (time nonce : UInt32) : BlockHeader :=
  ⟨1, prev, root, time, easyBits, nonce⟩

def coin (n : UInt32) : Transaction := .coinbase n 50

/-- Spends the first output of a transaction and locks its own with the empty script. -/
def spend (txid : Hash256) (scriptSig : Bytes) : Transaction :=
  ⟨1, [⟨txid, 0, scriptSig, 0xffffffff⟩], [⟨50, []⟩], 0⟩

def genesis : Block := ⟨header zeroHash coinId0 1000 0, [coin 0]⟩

def first : Block := ⟨header genesisHash coinId1 1001 5, [coin 1]⟩

/-- In the place of `first`, a block that repeats the coinbase of the genesis block. -/
def repeated : Block := ⟨header genesisHash coinId0 1001 1, [coin 0]⟩

/-- The rival of `first`. -/
def side : Block := ⟨header genesisHash coinId2 1002 5, [coin 2]⟩

def sideNext : Block := ⟨header sideHash coinId3 1003 0, [coin 3]⟩

/-- Spends, on the branch of `side`, the coinbase of `side`. -/
def spendsSide : Block := ⟨header sideHash spendsSideRoot 1003 1, [coin 3, spend coinId2 []]⟩

/-- Spends, on the branch of `side`, the coinbase of `first`. -/
def spendsFirst : Block := ⟨header sideHash spendsFirstRoot 1003 0, [coin 3, spend coinId1 []]⟩

/-- Spends, on the branch of `side`, the coinbase of the genesis block. -/
def spendsGenesis : Block :=
  ⟨header sideHash spendsGenesisRoot 1003 0, [coin 3, spend coinId0 []]⟩

/-- A child of `first` under a wrong Merkle root. -/
def damaged : Block := ⟨header firstHash zeroHash 1002 1, [coin 4]⟩

/-! The first output of `payingCoin` pays the hash of `publicKey`, and `payingSpend` spends it. -/

def publicKey : Bytes :=
  beBytes 33 0x025cbdf0646e5db4eaa398f365f2ea7a0e3d419b7e0330e39ce92bddedcac4f9bc

def publicKeyHash : Hash160 := beVector 20 0x5dedfbf9ea599dd4e3ca6a80b333c472fd0b3f69

/-- A signature as DER has it, the first number with a zero byte before it. -/
def der (r s : ℕ) : Bytes :=
  [0x30, 69, 2, 33] ++ beBytes 33 r ++ [2, 32] ++ beBytes 32 s

def derSignature : Bytes :=
  der 0xf01d6b9018ab421dd410404cb869072065522bf85734008f105cf385a023a80f
    0x78d0555b8e5b62c6ad5a6f70f2981ae8c15fbb37e2d6a8264d5dfd85a8d75fd8

def spendDigest : Hash256 := beVector 32
  0x78cde2fb7e72f271a58640446c370f13d39ce66bba0c4e73644b2b61c94e6288

/-- The digests that the key has signed. -/
def signatures : List (Hash256 × Bytes) := [
  (spendDigest, derSignature),
  (beVector 32 0x7e019163792f0255eab3237f3aab1ea8a007c86b8a6c55b7b1c8236bd8917943,
    der 0xf0801fc8bac7eed9aeb66075e9bac8daa675e049e5842ee5a9de9ec34b0935dd
      0x76e24e1aff41bcf56f0a26df553aadd1aa99a642f8e0b3bbda7548d42d3256da),
  (beVector 32 0x6aa4bcb4d9106afae73cb3c4b8b4f438d10071725fbf5540f0d87759b81f6551,
    der 0x8dce9ff6be80de7f52932ea7b70a91ac539673f1cc531c22699c173c1d66b8c0
      0x272d08e692dce8d2041123d835551ff3a99821835e0ac4e3f81e0f3147ec6283)]

def payingCoin : Transaction where
  version := 1
  inputs := [⟨zeroHash, 0xffffffff, [1, 0, 0, 0], 0xffffffff⟩]
  outputs := [⟨50, [0x76, 0xa9, 20] ++ publicKeyHash.toList ++ [0x88, 0xac]⟩]
  lockTime := 0

def payingSpend : Transaction :=
  spend payingCoinId (72 :: derSignature ++ 1 :: 33 :: publicKey)

/-- In the place of `first`, a block that pays the key and spends what it was paid. -/
def paying : Block :=
  ⟨header genesisHash payingRoot 1001 1, [payingCoin, payingSpend]⟩

/-- The two digests of a double SHA-256. -/
def twice (message : Bytes) (inner : ℕ) (outer : Hash256) : List (Bytes × Hash256) :=
  [(message, beVector 32 inner), (beBytes 32 inner, outer)]

def digests : Known Sha256.digest where
  table := List.flatten [
    twice genesis.header.serialize
      0x247f39fb3e73b985a28b151f0c61c84bfd90ead396bfa9f4222eff0b0d7ff264
      genesisHash,
    twice first.header.serialize
      0x70529272d38ee1c30e51b449ea0cc9bc572abb7c4c49022c3c19e0b156bde07e
      firstHash,
    twice side.header.serialize
      0xb156a708305834ae7d07aaefb48abd4542d0af21a509348c6fa9e744e710a61a
      sideHash,
    twice repeated.header.serialize
      0x2954495d2fa500e241efbf9722bd390b2d091b2b0901eedc33e45180e83f3df5 (beVector 32
      0xf0d8f94451a4faff80b73fac0b59ff3cb5c92ba5b54464bc7066cb02194f066b),
    twice sideNext.header.serialize
      0xb0abbd6b80796818fa3e7fdea0e15f97292174db7c463793e3718aebe18cb07c (beVector 32
      0xbd6d27244db7b561f12ff9219efa6003a8f5eb65e926b767121654b453b27b0f),
    twice spendsSide.header.serialize
      0x07a3220508f25a548c227b9dbef00f3c150c8c61f262c6729b76c3d1b2d58a16 (beVector 32
      0x9dcab9e70412b9f591a3c33b9625186936a924bf33c96b1cab288545a07b3f48),
    twice spendsFirst.header.serialize
      0xf607b3bbee24b2a5a350db43c3cb34e9b9e790769ee6f697c9bbfcb4e5a90ec8 (beVector 32
      0x93d527c8ec25ca1e94ce2fa2d3817e0967974a257e7d5444181875feac865405),
    twice spendsGenesis.header.serialize
      0x389e6bb24203ec8449d2ab4ea0de7b45530343aeadc05422e59dc4ed8cd6490a (beVector 32
      0xe5bbabba382c14dee5309715e7b8fdfa20f2b954fd8ce8fb15ca4b942295d405),
    twice damaged.header.serialize
      0x325b4af5c2e18d839f9959dc26b5106e15dc3b9ed1b7f2e00ee44636bf139242 (beVector 32
      0x89c7841efd62ee18211ea0cae211c3e63261eda42e271e77ca96ad4a8599870b),
    twice paying.header.serialize
      0xfdbcec8dfbae6a8b41618b258217dbab1ee911d0e1c67965fe8bac1b320c9049 (beVector 32
      0x63a403d2ca1956eaf3b85badf7aba83b0e173c5208d1a0861f2a43bf5bab1471),
    twice (coin 0).serialize
      0xa7e757dad9e7d9ee0e176c24428f223baf977b159d0ec80a0a8e13fd7a5d48c6
      coinId0,
    twice (coin 1).serialize
      0x4ccc8efd8931e727998bc4e25993f93d78f8342bee0e0bfb3da5e3dc590876d1
      coinId1,
    twice (coin 2).serialize
      0x9013ca1a22de158b68ec6471e2884232cf1aca81c490af1958495df2b15b60ea
      coinId2,
    twice (coin 3).serialize
      0x170bdd1cecff6b1cf2686267c8ffaf703fe6d9a77eed333a02beb1685232f699
      coinId3,
    twice (spend coinId2 []).serialize
      0x93dbec3647c98c0f0f61f284972d04bc36d05cc87d39a00ca21ba0239d26bb70 (beVector 32
      0x0d3f79ec7e62c086a6b831c50ccf1f0ad72c5030a0fef23278abd2e77294ce27),
    twice (spend coinId1 []).serialize
      0x2ff96f708a95ad8af17044c4491fdfa20d7ab03cd95c2b0913fc5ae589a6d373 (beVector 32
      0xafac167ab179f688256db42316b444407b143fdca093e74cd2ae95228058ed67),
    twice (spend coinId0 []).serialize
      0x3338c114c28810b2b372ba4326c6301b4f803e42f3b5f1647ae99ca707831376 (beVector 32
      0x9b47e5d74fdc50bdc08f88bfabffb15faca438ea9875f0d315f7cdcfa6ae7b9e),
    twice (coinId3.toList ++ beBytes 32
      0x9b47e5d74fdc50bdc08f88bfabffb15faca438ea9875f0d315f7cdcfa6ae7b9e)
      0xde6c14a7ff02c804ef874b963da3ecd5c2ec36960fe5185a6cba00d2c2d68ef2
      spendsGenesisRoot,
    twice (coinId3.toList ++ beBytes 32
      0x0d3f79ec7e62c086a6b831c50ccf1f0ad72c5030a0fef23278abd2e77294ce27)
      0x601e95abe6a40646bfa6cb8dc398e94874f6af9c32664a5c514a311178435207
      spendsSideRoot,
    twice (coinId3.toList ++ beBytes 32
      0xafac167ab179f688256db42316b444407b143fdca093e74cd2ae95228058ed67)
      0x8637e4e85637266ef716510835d4c0b2e57c3fcfbfc5a50b3d3c2d4f868d1d80
      spendsFirstRoot,
    twice payingCoin.serialize
      0x251ab197e4355b87b86dfd860b094b4ab91133c2d779dfcf3c9270caf03384c1
      payingCoinId,
    twice payingSpend.serialize
      0xd519cdc6d7a259adde73bd79c96a15905cb848b5a41c72ef8271a8e1b545887d (beVector 32
      0xf11e5ca0d0d8649e911980de11f6452d6ad3fd4e08e43c851a8672d1be41a025),
    twice (payingCoinId.toList ++ beBytes 32
      0xf11e5ca0d0d8649e911980de11f6452d6ad3fd4e08e43c851a8672d1be41a025)
      0xcacbbdfc70c72bf0e85bf3104527bfc6eda7fc2ae3fa5d4eca3f3996296db71e
      payingRoot,
    [(publicKey, beVector 32
      0xa2039429ca2d2f2bcc0725a1682aeeeb3ac1b8e77248c34fa57fcdef29d01c53)]]
  sound := by decide +kernel

/-- SHA-256, and the signature check of the one key.  Other keys and signatures do not occur. -/
scoped instance : Crypto where
  sha256 := digests.apply
  ripemd160 message := if message = (digests.apply publicKey).toList then publicKeyHash
    else List.Vector.replicate 20 0
  signatureFromDer der := decide (der ∈ signatures.map Prod.snd)
  publicKeyFromSlice key := decide (key = publicKey)
  verifyEcdsa digest der key := decide ((digest, der) ∈ signatures ∧ key = publicKey)

scoped instance (priority := low) : Features where
  testShortPeriod := false

theorem sha256_eq (message : Bytes) : Crypto.sha256 message = Sha256.digest message :=
  digests.apply_eq message

/-! The states of the runs below: the genesis chain, a block on it, its rival on
a side branch, and the reorganisation to a child of the rival. -/

def genesisMeta : BlockMeta := ⟨genesis, 0, easyWork, UtxoSet.transactionUndos ∅ [coin 0]⟩

def sideMeta : BlockMeta := ⟨side, 1, easyWork.add easyWork, []⟩

def order : OrphanOrder := ⟨id, fun _ ↦ .refl _⟩

def start : Chain :=
  { (Chain.blank 5000 256).pushTip genesis 0 easyWork with totalWork := easyWork }

def grown (block : Block) : Chain := start.extendTip block genesisMeta easyWork

def forked (base : Chain) : Chain := base.storeSide side genesisMeta easyWork

def rewound (base : Chain) (tip : Block) : Chain := Chain.rewind [tip] (forked base)

def branched (base : Chain) (tip : Block) : Chain := (rewound base tip).pushForkBlock side easyWork

def switched (base : Chain) (tip last : Block) : Chain :=
  ({ (branched base tip).pushForkBlock last easyWork with
    totalWork := sideMeta.work.add easyWork }).pushEvent
      (.chainReorg 1 (forked base).tipHash last.hash)

theorem start_created : Chain.newGenesis genesis 5000 = .ok start :=
  Chain.withJournalCapacities_of_valid (by decide) (by decide +kernel) (by decide +kernel)
    blockWork_easyBits

theorem start_reachable {cond : Chain → Block → Prop} : Chain.ReachableWith cond genesis start :=
  .start start_created

/-- The block extends the genesis chain. -/
structure Opens (block : Block) : Prop where
  bits : block.header.bits = easyBits
  fits : Chain.Fits start block genesisMeta
  tip : block.header.prevBlockhash = start.tipHash

namespace Opens

variable {block : Block}

instance (block : Block) : Decidable (Opens block) :=
  decidable_of_iff (block.header.bits = easyBits ∧ Chain.Fits start block genesisMeta ∧
      block.header.prevBlockhash = start.tipHash)
    ⟨fun ⟨bits, fits, tip⟩ ↦ ⟨bits, fits, tip⟩, fun h ↦ ⟨h.bits, h.fits, h.tip⟩⟩

theorem admitted (h : Opens block) : Chain.Admitted start block genesisMeta easyWork :=
  h.fits.admitted (h.bits ▸ blockWork_easyBits)

theorem place_eq (h : Opens block) : start.place block genesisMeta easyWork =
    (.ok (.connected 1 block.hash), grown block) :=
  Chain.place_extended h.tip

theorem reachable {cond : Chain → Block → Prop} (h : Opens block) (hcond : cond start block) :
    Chain.ReachableWith cond genesis (grown block) := by
  have hrun : Chain.ReachableWith cond genesis start := start_reachable
  have hnext := hrun.place order hrun.coherent.indexed rfl h.admitted
    (by rw [h.place_eq]; simp [Returned]) hcond
  rwa [h.place_eq] at hnext

end Opens

/-- The rival is stored beside the tip. -/
structure Splits (base : Chain) : Prop where
  orphans : base.orphans = ∅
  fits : Chain.Fits base side genesisMeta
  tip : side.header.prevBlockhash ≠ base.tipHash
  lighter : (genesisMeta.work.add easyWork).le base.totalWork

namespace Splits

variable {base : Chain}

instance (base : Chain) : Decidable (Splits base) :=
  decidable_of_iff (base.orphans.entries.isEmpty ∧ Chain.Fits base side genesisMeta ∧
      side.header.prevBlockhash ≠ base.tipHash ∧ (genesisMeta.work.add easyWork).le base.totalWork)
    ⟨fun ⟨orphans, fits, tip, lighter⟩ ↦
        ⟨AList.ext (List.isEmpty_iff.mp orphans), fits, tip, lighter⟩,
      fun h ↦ ⟨h.orphans ▸ rfl, h.fits, h.tip, h.lighter⟩⟩

theorem admitted (h : Splits base) : Chain.Admitted base side genesisMeta easyWork :=
  h.fits.admitted blockWork_easyBits

theorem place_eq (h : Splits base) : base.place side genesisMeta easyWork =
    (.ok (.sideChain 1 side.hash), forked base) :=
  Chain.place_side h.tip h.lighter

theorem reachable {cond : Chain → Block → Prop} (h : Splits base)
    (hrun : Chain.ReachableWith cond genesis base) (hcond : cond base side) :
    Chain.ReachableWith cond genesis (forked base) := by
  have hnext := hrun.place order hrun.coherent.indexed h.orphans h.admitted
    (by rw [h.place_eq]; simp [Returned]) hcond
  rwa [h.place_eq] at hnext

end Splits

/-- The block gets admitted on top of the rival, and so starts a reorganisation. -/
structure Challenges (base : Chain) (tip last : Block) : Prop where
  orphans : base.orphans = ∅
  blocks : base.blocks = [genesis, tip]
  bits : last.header.bits = easyBits
  fits : Chain.Fits (forked base) last sideMeta
  not_tip : last.header.prevBlockhash ≠ (forked base).tipHash
  heavier : ¬ (sideMeta.work.add easyWork).le (forked base).totalWork
  collected : (forked base).collectForkPath last = .ok ([side, last], genesis.hash)
  side_valid : (rewound base tip).validateBlockForParent side (rewound base tip).blocks.getLast?
    (some side.header.prevBlockhash) ((rewound base tip).height + 1) = .ok ()

namespace Challenges

variable {base : Chain} {tip last : Block}

instance (base : Chain) (tip last : Block) : Decidable (Challenges base tip last) :=
  decidable_of_iff (base.orphans.entries.isEmpty ∧ base.blocks = [genesis, tip] ∧
      last.header.bits = easyBits ∧ Chain.Fits (forked base) last sideMeta ∧
      last.header.prevBlockhash ≠ (forked base).tipHash ∧
      ¬ (sideMeta.work.add easyWork).le (forked base).totalWork ∧
      (forked base).collectForkPath last = .ok ([side, last], genesis.hash) ∧
      (rewound base tip).validateBlockForParent side (rewound base tip).blocks.getLast?
        (some side.header.prevBlockhash) ((rewound base tip).height + 1) = .ok ())
    ⟨fun ⟨orphans, blocks, bits, fits, not_tip, heavier, collected, side_valid⟩ ↦
        ⟨AList.ext (List.isEmpty_iff.mp orphans), blocks, bits, fits, not_tip, heavier, collected,
          side_valid⟩,
      fun h ↦ ⟨h.orphans ▸ rfl, h.blocks, h.bits, h.fits, h.not_tip, h.heavier, h.collected,
        h.side_valid⟩⟩

theorem admitted (h : Challenges base tip last) :
    Chain.Admitted (forked base) last sideMeta easyWork :=
  h.fits.admitted (h.bits ▸ blockWork_easyBits)

theorem forks (h : Challenges base tip last) (hindexed : Chain.Indexed genesis (forked base)) :
    Chain.ForkPoint (forked base) last [side, last] [] genesis [tip] :=
  .of_collected hindexed h.admitted.parent_known h.collected h.blocks

/-- The branch forks off at the genesis block. -/
theorem fork_eq (h : Challenges base tip last) (hne : tip.hash ≠ genesis.hash)
    {path keep post : List Block} {fork : Block}
    (hf : Chain.ForkPoint (forked base) last path keep fork post) :
    path = [side, last] ∧ keep = [] ∧ fork = genesis ∧ post = [tip] := by
  obtain ⟨hpath, hhash⟩ := Prod.mk.inj (Except.ok.inj (hf.collected.symm.trans h.collected))
  have hsplit : [genesis, tip] = keep ++ fork :: post := h.blocks.symm.trans hf.split
  cases keep with
  | nil =>
      obtain ⟨rfl, rfl⟩ := List.cons.inj hsplit
      exact ⟨hpath, rfl, rfl, rfl⟩
  | cons first rest =>
      obtain ⟨rfl, hrest⟩ := List.cons.inj hsplit
      cases rest with
      | nil =>
          obtain ⟨rfl, -⟩ := List.cons.inj hrest
          exact (hne hhash).elim
      | cons second rest =>
          have hlength := congrArg List.length hrest
          simp at hlength

theorem place_eq (h : Challenges base tip last) (hindexed : Chain.Indexed genesis (forked base))
    (hvalid : (branched base tip).validateBlockForParent last (branched base tip).blocks.getLast?
      (some last.header.prevBlockhash) ((branched base tip).height + 1) = .ok ()) :
    (forked base).place last sideMeta easyWork =
      (.ok (.reorganized (forked base).tipHash last.hash), switched base tip last) :=
  Chain.place_reorganized hindexed (h.forks hindexed) h.not_tip h.heavier
    (.cons ⟨h.side_valid, blockWork_easyBits⟩
      (.cons ⟨hvalid, h.bits ▸ blockWork_easyBits⟩ (.nil _)))

theorem reachable {cond : Chain → Block → Prop} (h : Challenges base tip last)
    (hrun : Chain.ReachableWith cond genesis (forked base))
    (hvalid : (branched base tip).validateBlockForParent last (branched base tip).blocks.getLast?
      (some last.header.prevBlockhash) ((branched base tip).height + 1) = .ok ())
    (hcond : cond (forked base) last) :
    Chain.ReachableWith cond genesis (switched base tip last) := by
  have hplace := h.place_eq hrun.coherent.indexed hvalid
  have hnext := hrun.place order hrun.coherent.indexed h.orphans h.admitted
    (by rw [hplace]; simp [Returned]) hcond
  rwa [hplace] at hnext

end Challenges

theorem first_opens : Opens first := by decide +kernel

theorem first_splits : Splits (grown first) := by decide +kernel

theorem sideNext_challenges : Challenges (grown first) first sideNext ∧
    (branched (grown first) first).validateBlockForParent sideNext
      (branched (grown first) first).blocks.getLast? (some sideNext.header.prevBlockhash)
        ((branched (grown first) first).height + 1) = .ok () := by
  decide +kernel

/-- The run of the reorganisation to `sideNext`. -/
theorem switched_reachable {cond : Chain → Block → Prop} (hfirst : cond start first)
    (hside : cond (grown first) side) (hnext : cond (forked (grown first)) sideNext) :
    Chain.ReachableWith cond genesis (switched (grown first) first sideNext) :=
  sideNext_challenges.1.reachable (first_splits.reachable (first_opens.reachable hfirst) hside)
    sideNext_challenges.2 hnext

theorem forked_reachable : Chain.Reachable genesis (forked (grown first)) :=
  first_splits.reachable (first_opens.reachable trivial) trivial

theorem spendsFirst_challenges : Challenges (grown first) first spendsFirst := by
  decide +kernel

/-- A block that spends an output of the active branch passes the first check and fails when its
turn on the fork path comes. -/
theorem spendsFirst_fails (order : OrphanOrder) :
    Chain.connectBlock order spendsFirst (forked (grown first)) =
      (.error (.error (.utxo (.missingInput coinId1 0))),
        (forked (grown first)).restoreActive (branched (grown first) first)) := by
  have hindexed := forked_reachable.coherent.indexed
  have hinvalid : (branched (grown first) first).validateBlockForParent spendsFirst
      (branched (grown first) first).blocks.getLast? (some spendsFirst.header.prevBlockhash)
        ((branched (grown first) first).height + 1) =
          .error (.error (.utxo (.missingInput coinId1 0))) := by
    decide +kernel
  have hpath : Chain.connectForkPath [side, spendsFirst]
        (Chain.rewind [first] (forked (grown first))) =
      (.error (.error (.utxo (.missingInput coinId1 0))), branched (grown first) first) :=
    (Chain.connectForkPath_valid ⟨spendsFirst_challenges.side_valid, blockWork_easyBits⟩).trans
      (Chain.connectForkPath_invalid hinvalid)
  rw [Chain.connectBlock_eq_place hindexed rfl order spendsFirst_challenges.admitted,
    Chain.place_reorg hindexed (spendsFirst_challenges.forks hindexed)
      spendsFirst_challenges.not_tip spendsFirst_challenges.heavier, hpath]

theorem forked_index_coherent : (forked (grown first)).blocks ≠ [] ∧
    (forked (grown first)).blocks.head? = some genesis :=
  have h := Chain.reachable_index_coherent forked_reachable
  ⟨h.1, h.2.1⟩

end Bitrst.Sample
