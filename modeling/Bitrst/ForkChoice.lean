import Bitrst.ChainCoherence

/-!
# Fork choice

The recorded work of a block is its parent's plus its own, no known block is
heavier than the tip, and only a strictly heavier block displaces it.  A block
pushed again during a reorganisation gets the work it had.
-/

namespace Bitrst

open Support

variable [Crypto] [Features]

namespace Chain

variable {genesis : Block} {chain : Chain}

/-- The work recorded for the block with hash `hash`. -/
def workOf (chain : Chain) (hash : Hash256) : Option ChainWork :=
  (chain.known.lookup hash).map BlockMeta.work

/-- Every indexed block other than genesis has its parent's work plus its own. -/
def WorkLinked (genesis : Block) (chain : Chain) : Prop :=
  ∀ hash entry, chain.known.lookup hash = some entry → hash = genesis.hash ∨
    ∃ below work, chain.workOf entry.block.header.prevBlockhash = some below ∧
      blockWork entry.block.header.bits = .ok work ∧
        entry.work.toNat = below.toNat + work.toNat

/-- The work bookkeeping of a chain between two calls. -/
structure Weighed (genesis : Block) (chain : Chain) : Prop where
  linked : WorkLinked genesis chain
  total : chain.workOf chain.tipHash = some chain.totalWork
  heaviest : ∀ hash work, chain.workOf hash = some work → work.toNat ≤ chain.totalWork.toNat

/-- If the block is admitted, its cumulative work fits in 256 bits. -/
def WorkFits (chain : Chain) (block : Block) : Prop :=
  ∀ parent work, Admitted chain block parent work → parent.work.toNat + work.toNat < 2 ^ 256

/-! ## Indexing a block -/

omit [Crypto] [Features] in
theorem workOf_insert {chain chain' : Chain} {hash : Hash256} {entry : BlockMeta}
    (hknown : chain'.known = Finmap.insert hash entry chain.known) (key : Hash256) :
    chain'.workOf key = if key = hash then some entry.work else chain.workOf key := by
  rw [workOf, hknown, HashMap.lookup_insert_ite]
  split <;> rfl

/-- A block about to be indexed above a block of known work. -/
structure Weighable (genesis : Block) (chain : Chain) (block : Block) (below work : ChainWork) :
    Prop where
  parent : chain.workOf block.header.prevBlockhash = some below
  block_work : blockWork block.header.bits = .ok work
  fits : below.toNat + work.toNat < 2 ^ 256
  indexed : ∀ entry, chain.known.lookup block.hash = some entry → entry.block = block
  parent_ne : block.header.prevBlockhash ≠ block.hash
  not_genesis : block.hash ≠ genesis.hash

namespace Weighable

variable {block : Block} {below work : ChainWork}

omit [Features] in
/-- A block indexed a second time gets the work it already had. -/
theorem workOf_eq (hw : Weighable genesis chain block below work)
    (hlinked : WorkLinked genesis chain) (hblock : chain.known.lookup block.hash ≠ none) :
    chain.workOf block.hash = some (below.add work) := by
  obtain ⟨entry, hentry⟩ := Option.ne_none_iff_exists'.mp hblock
  rcases hlinked _ entry hentry with hgen | ⟨below', work', hbelow, hwork, hsum⟩
  · exact (hw.not_genesis hgen).elim
  · rw [hw.indexed entry hentry] at hbelow hwork
    rw [hw.parent] at hbelow
    rw [hw.block_work] at hwork
    obtain rfl := Option.some.inj hbelow
    obtain rfl := Except.ok.inj hwork
    rw [workOf, hentry, Option.map_some]
    refine congrArg some (ChainWork.toNat_injective ?_)
    rw [hsum, ChainWork.toNat_add_of_lt hw.fits]

omit [Features] in
theorem workOf_of_known (hw : Weighable genesis chain block below work)
    (hlinked : WorkLinked genesis chain) {chain' : Chain} {height : ℕ} {undo : List TxUndo}
    (hknown : chain'.known =
      Finmap.insert block.hash ⟨block, height, below.add work, undo⟩ chain.known)
    {hash : Hash256} (hhash : chain.known.lookup hash ≠ none) :
    chain'.workOf hash = chain.workOf hash := by
  rw [workOf_insert hknown]
  split
  · rename_i heq
    rw [heq] at hhash ⊢
    exact (hw.workOf_eq hlinked hhash).symm
  · rfl

omit [Features] in
theorem workLinked (hw : Weighable genesis chain block below work)
    (hlinked : WorkLinked genesis chain) {chain' : Chain} {height : ℕ} {undo : List TxUndo}
    (hknown : chain'.known =
      Finmap.insert block.hash ⟨block, height, below.add work, undo⟩ chain.known) :
    WorkLinked genesis chain' := by
  have hbelow : ∀ hash found, chain.workOf hash = some found →
      chain'.workOf hash = some found := by
    intro hash found hfound
    rw [hw.workOf_of_known hlinked hknown, hfound]
    intro hnone
    rw [workOf, hnone] at hfound
    cases hfound
  intro hash entry hentry
  rw [hknown, HashMap.lookup_insert_ite] at hentry
  split at hentry
  · obtain rfl := Option.some.inj hentry
    exact Or.inr ⟨below, work, hbelow _ _ hw.parent, hw.block_work,
      ChainWork.toNat_add_of_lt hw.fits⟩
  · rcases hlinked hash entry hentry with hgen | ⟨found, work', hfound, hwork, hsum⟩
    · exact Or.inl hgen
    · exact Or.inr ⟨found, work', hbelow _ _ hfound, hwork, hsum⟩

end Weighable

theorem Admitted.weighable (h : Indexed genesis chain) {block : Block} {parent : BlockMeta}
    {work : ChainWork} (hadm : Admitted chain block parent work)
    (hfits : parent.work.toNat + work.toNat < 2 ^ 256) :
    Weighable genesis chain block parent.work work where
  parent := by rw [workOf, hadm.parent_known, Option.map_some]
  block_work := hadm.block_work
  fits := hfits
  indexed := by simp [hadm.unknown]
  parent_ne := by
    intro heq
    have hparent := hadm.parent_known
    rw [heq, hadm.unknown] at hparent
    cases hparent
  not_genesis := by
    intro heq
    obtain ⟨entry, hentry, -⟩ := h.genesis_known
    rw [← heq, hadm.unknown] at hentry
    cases hentry

/-! ## The work along a fork path -/

omit [Features] in
/-- Every known block keeps its recorded work. -/
def KeepsWork (chain chain' : Chain) : Prop :=
  ∀ hash, chain.known.lookup hash ≠ none → chain'.workOf hash = chain.workOf hash

/-- The blocks of a fork path are indexed with the work of their branch. -/
theorem ForkPoint.connects_work (h : Indexed genesis chain)
    (hlinked : WorkLinked genesis chain) {block : Block} {parent : BlockMeta} {work : ChainWork}
    {path keep post front back : List Block} {fork : Block} {reached : Chain}
    (hadm : Admitted chain block parent work)
    (hfits : parent.work.toNat + work.toNat < 2 ^ 256)
    (hf : ForkPoint chain block path keep fork post) (hparts : path = front ++ back)
    (hconnects : ConnectsPath front (Chain.rewind post chain) reached) :
    WorkLinked genesis reached ∧ KeepsWork chain reached := by
  have hready : PathReady genesis (Chain.rewind post chain) front :=
    PathReady.front (hparts ▸ hf.pathReady h hadm.unknown)
  have hrewind : ∀ hash, (Chain.rewind post chain).workOf hash = chain.workOf hash := by
    intro hash
    rw [workOf, workOf, rewind_known]
  refine (PathReady.induction_on_path
    (fun current ↦ WorkLinked genesis current ∧ KeepsWork chain current) ?_ hconnects
    (hf.rewind_indexed h) hready ⟨?_, fun hash _ ↦ hrewind hash⟩).2
  · rintro current b rest work' hb hindexed hp ⟨-, hwork'⟩ ⟨hcurrent, hkeeps⟩
    have hpush := hp.pushable hindexed
    obtain ⟨tip, htip, -⟩ := hp.parent_eq hindexed
    have hparentWork : current.parentWork b = tip.work := by
      rw [parentWork, htip]
      rfl
    have htipWork : current.workOf b.header.prevBlockhash = some tip.work := by
      rw [workOf, htip, Option.map_some]
    have hfitsHere : tip.work.toNat + work'.toNat < 2 ^ 256 := by
      by_cases hnew : current.known.lookup b.hash = none
      · -- a block not indexed yet is the candidate itself
        rcases hf.mem_path_cases (hparts ▸ List.mem_append_left _ hb) with rfl | ⟨-, e, he, -⟩
        · have hsame := hkeeps b.header.prevBlockhash (by simp [hadm.parent_known])
          rw [htipWork, workOf, hadm.parent_known, Option.map_some] at hsame
          rw [hadm.block_work] at hwork'
          obtain rfl := Except.ok.inj hwork'
          rw [Option.some.inj hsame]
          exact hfits
        · have hsame := hkeeps b.hash (by simp [he])
          rw [workOf, hnew, workOf, he] at hsame
          cases hsame
      · obtain ⟨e, he⟩ := Option.ne_none_iff_exists'.mp hnew
        rcases hcurrent _ e he with hgen | ⟨below, own, hbelow, hown, hsum⟩
        · exact (hp.not_genesis b List.mem_cons_self hgen).elim
        · rw [(hpush.indexed e he).1] at hbelow hown
          rw [htipWork] at hbelow
          rw [hwork'] at hown
          obtain rfl := Option.some.inj hbelow
          obtain rfl := Except.ok.inj hown
          rw [← hsum]
          exact e.work.toNat_lt
    have hw : Weighable genesis current b tip.work work' :=
      { parent := htipWork
        block_work := hwork'
        fits := hfitsHere
        indexed := fun e he ↦ (hpush.indexed e he).1
        parent_ne := by
          obtain ⟨below, last, _, hblocks, htipHash, -⟩ := hindexed.exists_tip
          rw [hpush.prev, htipHash]
          exact hindexed.ne_of_mem_of_pushable hpush (by simp [hblocks])
        not_genesis := hp.not_genesis b List.mem_cons_self }
    have hknown : (current.pushForkBlock b work').known = Finmap.insert b.hash
        ⟨b, current.height + 1, tip.work.add work',
          current.utxo.transactionUndos b.transactions⟩ current.known := by
      rw [pushForkBlock, hparentWork]
      rfl
    refine ⟨hw.workLinked hcurrent hknown, ?_⟩
    intro hash hhash
    rw [hw.workOf_of_known hcurrent hknown, hkeeps hash hhash]
    intro hnone
    have hsame := hkeeps hash hhash
    obtain ⟨e, he⟩ := Option.ne_none_iff_exists'.mp hhash
    rw [workOf, hnone, workOf, he] at hsame
    cases hsame
  · intro hash entry hentry
    rw [rewind_known] at hentry
    rcases hlinked hash entry hentry with hgen | ⟨below, own, hbelow, hrest⟩
    · exact Or.inl hgen
    · exact Or.inr ⟨below, own, by rw [hrewind, hbelow], hrest⟩

/-! ## Placing a block -/

theorem extendTip_weighed (h : Indexed genesis chain) (hweighed : Weighed genesis chain)
    {block : Block} {parent : BlockMeta} {work : ChainWork}
    (hadm : Admitted chain block parent work)
    (hfits : parent.work.toNat + work.toNat < 2 ^ 256)
    (htip : block.header.prevBlockhash = chain.tipHash) :
    Weighed genesis (chain.extendTip block parent work) := by
  have hw := hadm.weighable h hfits
  have hknown : (chain.extendTip block parent work).known = Finmap.insert block.hash
      ⟨block, parent.height + 1, parent.work.add work,
        chain.utxo.transactionUndos block.transactions⟩ chain.known := rfl
  have hparent : parent.work = chain.totalWork := by
    have htotal := hweighed.total
    rw [← htip, hw.parent] at htotal
    exact Option.some.inj htotal
  refine ⟨hw.workLinked hweighed.linked hknown, ?_, ?_⟩
  · have htipHash : (chain.extendTip block parent work).tipHash = block.hash :=
      tipHash_of_append chain.blocks rfl
    rw [htipHash, workOf_insert hknown, if_pos rfl]
    rfl
  · intro hash found hfound
    change found.toNat ≤ (parent.work.add work).toNat
    rw [workOf_insert hknown] at hfound
    split at hfound
    · rw [← Option.some.inj hfound]
    · have hle := hweighed.heaviest hash found hfound
      rw [← hparent] at hle
      rw [ChainWork.toNat_add_of_lt hfits]
      omega

theorem storeSide_weighed (h : Indexed genesis chain) (hweighed : Weighed genesis chain)
    {block : Block} {parent : BlockMeta} {work : ChainWork}
    (hadm : Admitted chain block parent work)
    (hfits : parent.work.toNat + work.toNat < 2 ^ 256)
    (hlighter : (parent.work.add work).le chain.totalWork) :
    Weighed genesis (chain.storeSide block parent work) := by
  have hw := hadm.weighable h hfits
  have hknown : (chain.storeSide block parent work).known = Finmap.insert block.hash
      ⟨block, parent.height + 1, parent.work.add work, []⟩ chain.known := rfl
  refine ⟨hw.workLinked hweighed.linked hknown, ?_, ?_⟩
  · change (chain.storeSide block parent work).workOf chain.tipHash = some chain.totalWork
    rw [hw.workOf_of_known hweighed.linked hknown, hweighed.total]
    intro hnone
    have htotal := hweighed.total
    rw [workOf, hnone] at htotal
    cases htotal
  · intro hash found hfound
    rw [workOf_insert hknown] at hfound
    split at hfound
    · rw [← Option.some.inj hfound]
      exact ChainWork.le_iff.mp hlighter
    · exact hweighed.heaviest hash found hfound

/-- Every known block of the reached chain was known or is the candidate. -/
theorem ForkPoint.known_of_connects {block : Block} {path keep post front back : List Block}
    {fork : Block} {reached : Chain} (hf : ForkPoint chain block path keep fork post)
    (hparts : path = front ++ back)
    (hconnects : ConnectsPath front (Chain.rewind post chain) reached) {hash : Hash256}
    (hhash : reached.known.lookup hash ≠ none) :
    chain.known.lookup hash ≠ none ∨ hash = block.hash ∧ block ∈ front := by
  by_cases hold : ∀ b ∈ front, b.hash ≠ hash
  · rw [hconnects.known_eq hold, rewind_known] at hhash
    exact Or.inl hhash
  · push Not at hold
    obtain ⟨b, hb, rfl⟩ := hold
    rcases hf.mem_path_cases (hparts ▸ List.mem_append_left _ hb) with rfl | ⟨-, e, he, -⟩
    · exact Or.inr ⟨rfl, hb⟩
    · exact Or.inl (by simp [he])

theorem reorganized_weighed (h : Indexed genesis chain) (hweighed : Weighed genesis chain)
    {block : Block} {parent : BlockMeta} {work : ChainWork} {path keep post : List Block}
    {fork : Block} {done : Chain} (hadm : Admitted chain block parent work)
    (hfits : parent.work.toNat + work.toNat < 2 ^ 256)
    (hheavier : ¬ (parent.work.add work).le chain.totalWork)
    (hf : ForkPoint chain block path keep fork post)
    (hconnects : ConnectsPath path (Chain.rewind post chain) done) (event : ChainEvent) :
    Weighed genesis (({ done with totalWork := parent.work.add work }).pushEvent event) := by
  obtain ⟨hlinked, hkeeps⟩ := hf.connects_work h hweighed.linked hadm hfits
    (List.append_nil path).symm hconnects
  have htipHash := hf.connects_tipHash hconnects
  have hindexed := hf.connects_indexed h hadm.unknown (List.append_nil path).symm hconnects
  have htotal : done.workOf block.hash = some (parent.work.add work) := by
    obtain ⟨-, tip, entry, -, htip, hentry, hblock, -⟩ := hindexed.exists_tip
    rw [htipHash] at htip
    rw [← htip] at hentry
    have hsame : entry.block = block := by
      obtain ⟨e, he, heq⟩ := hindexed.mem_active_known (b := block)
        (by simp [hconnects.blocks_eq, hf.block_mem_path])
      rw [hentry] at he
      rw [Option.some.inj he, heq]
    rcases hlinked _ entry hentry with hgen | ⟨below, own, hbelow, hown, hsum⟩
    · exact ((hadm.weighable h hfits).not_genesis hgen).elim
    · rw [hsame] at hbelow hown
      rw [hkeeps _ (by simp [hadm.parent_known]), workOf, hadm.parent_known,
        Option.map_some] at hbelow
      rw [hadm.block_work] at hown
      obtain rfl := Option.some.inj hbelow
      obtain rfl := Except.ok.inj hown
      rw [workOf, hentry, Option.map_some]
      refine congrArg some (ChainWork.toNat_injective ?_)
      rw [hsum, ChainWork.toNat_add_of_lt hfits]
  refine ⟨hlinked, ?_, ?_⟩
  · change done.workOf done.tipHash = some (parent.work.add work)
    rw [htipHash, htotal]
  · intro hash found hfound
    change done.workOf hash = some found at hfound
    change found.toNat ≤ (parent.work.add work).toNat
    have hsome : done.known.lookup hash ≠ none := by
      intro hnone
      rw [workOf, hnone] at hfound
      cases hfound
    rcases hf.known_of_connects (List.append_nil path).symm hconnects hsome with hold | ⟨rfl, -⟩
    · rw [hkeeps hash hold] at hfound
      have hle := hweighed.heaviest hash found hfound
      rw [ChainWork.le_iff, Nat.not_le] at hheavier
      omega
    · rw [htotal] at hfound
      rw [← Option.some.inj hfound]

theorem restoreActive_weighed (h : Indexed genesis chain) (hweighed : Weighed genesis chain)
    {block next : Block} {parent : BlockMeta} {work : ChainWork}
    {path keep post front back : List Block} {fork : Block} {reached : Chain}
    (hadm : Admitted chain block parent work)
    (hfits : parent.work.toNat + work.toNat < 2 ^ 256)
    (hf : ForkPoint chain block path keep fork post) (hparts : path = front ++ next :: back)
    (hconnects : ConnectsPath front (Chain.rewind post chain) reached) :
    Weighed genesis (chain.restoreActive reached) := by
  obtain ⟨hlinked, hkeeps⟩ := hf.connects_work h hweighed.linked hadm hfits hparts hconnects
  refine ⟨hlinked, ?_, ?_⟩
  · change reached.workOf chain.tipHash = some chain.totalWork
    rw [hkeeps, hweighed.total]
    intro hnone
    have htotal := hweighed.total
    rw [workOf, hnone] at htotal
    cases htotal
  · intro hash found hfound
    change reached.workOf hash = some found at hfound
    have hsome : reached.known.lookup hash ≠ none := by
      intro hnone
      rw [workOf, hnone] at hfound
      cases hfound
    have hold : chain.known.lookup hash ≠ none := by
      rcases hf.known_of_connects hparts hconnects hsome with hold | ⟨-, hmem⟩
      · exact hold
      · -- the candidate is the last block of the path, so it was not reached
        obtain ⟨stored, hstored, hall⟩ := hf.path.last
        have hpre : front ++ (next :: back).dropLast = stored := by
          rw [← List.dropLast_append_of_ne_nil (List.cons_ne_nil _ _), ← hparts, hstored,
            List.dropLast_concat]
        obtain ⟨-, e, he, -⟩ := hall block (hpre ▸ List.mem_append_left _ hmem)
        rw [hadm.unknown] at he
        cases he
    rw [hkeeps hash hold] at hfound
    exact hweighed.heaviest hash found hfound

theorem Placement.weighed (h : Indexed genesis chain) (hweighed : Weighed genesis chain)
    {block : Block} {parent : BlockMeta} {work : ChainWork}
    (hadm : Admitted chain block parent work)
    (hfits : parent.work.toNat + work.toNat < 2 ^ 256)
    {outcome : ChainResult ConnectResult × Chain}
    (hplace : Placement chain block parent work outcome) : Weighed genesis outcome.2 := by
  cases hplace with
  | extended tip => exact extendTip_weighed h hweighed hadm hfits tip
  | side _ lighter => exact storeSide_weighed h hweighed hadm hfits lighter
  | reorganized _ heavier forks connects =>
      exact reorganized_weighed h hweighed hadm hfits heavier forks connects _
  | failed _ _ _ _ forks _ parts connects =>
      have hrestored := restoreActive_weighed h hweighed hadm hfits forks parts connects
      exact ⟨hrestored.linked, hrestored.total, hrestored.heaviest⟩

/-! ## Runs -/

omit [Features] in
/-- The bookkeeping only depends on the active list, the index and the total. -/
theorem Weighed.congr {chain' : Chain} (h : Weighed genesis chain)
    (hblocks : chain'.blocks = chain.blocks) (hknown : chain'.known = chain.known)
    (htotal : chain'.totalWork = chain.totalWork) : Weighed genesis chain' := by
  have hwork : ∀ hash, chain'.workOf hash = chain.workOf hash := by
    intro hash
    rw [workOf, workOf, hknown]
  refine ⟨?_, ?_, ?_⟩
  · intro hash entry hentry
    rw [hknown] at hentry
    rcases h.linked hash entry hentry with hgen | ⟨below, work, hbelow, hrest⟩
    · exact Or.inl hgen
    · exact Or.inr ⟨below, work, by rw [hwork, hbelow], hrest⟩
  · rw [hwork, tipHash, hblocks, htotal]
    exact h.total
  · intro hash work hfound
    rw [hwork] at hfound
    rw [htotal]
    exact h.heaviest hash work hfound

theorem withJournalCapacities_weighed {networkTime : UInt32} {capacity : ℕ}
    (h : withJournalCapacities genesis networkTime capacity = .ok chain) :
    Weighed genesis chain := by
  obtain ⟨work, -, rfl⟩ := withJournalCapacities_spec h
  refine ⟨?_, ?_, ?_⟩
  · intro hash entry hentry
    rw [pushTip_known] at hentry
    split at hentry
    · exact Or.inl ‹hash = genesis.hash›
    · simp at hentry
  · change ((pushTip _ genesis 0 work).known.lookup genesis.hash).map BlockMeta.work = some work
    rw [pushTip_known, if_pos rfl]
    rfl
  · intro hash found hfound
    rw [workOf, pushTip_known] at hfound
    split at hfound
    · rw [← Option.some.inj hfound]
    · simp at hfound

/-- The invariant of fork choice. -/
def CoherentWeighed (genesis : Block) (chain : Chain) : Prop :=
  Coherent genesis chain ∧ Weighed genesis chain

omit [Features] in
theorem FewerOrphans.coherentWeighed {chain' : Chain} (h : CoherentWeighed genesis chain)
    (hfewer : FewerOrphans chain chain') : CoherentWeighed genesis chain' := by
  refine ⟨hfewer.coherent h.1, ?_⟩
  obtain ⟨orphans, rfl, -⟩ := hfewer
  exact h.2.congr rfl rfl rfl

theorem connectAlone_coherentWeighed (h : CoherentWeighed genesis chain) (order : OrphanOrder)
    {block : Block} (hfits : WorkFits chain block) :
    CoherentWeighed genesis (connectAlone order block chain).2 := by
  refine ⟨connectAlone_coherent h.1 order block, ?_⟩
  rw [connectAlone_eq]
  cases hadm : chain.admission block with
  | error e => exact h.2
  | ok found =>
      cases found with
      | none =>
          obtain ⟨orphans, seq, journal, heq, -⟩ := insertOrphan_spec order chain block
          simp only [heq]
          exact h.2.congr rfl rfl rfl
      | some pair =>
          have hadmitted := admission_some_iff.mp hadm
          exact (place_placement h.1.indexed hadmitted).weighed h.1.indexed h.2 hadmitted
            (hfits _ _ hadmitted)

theorem ReachableWith.coherentWeighed (h : ReachableWith WorkFits genesis chain) :
    CoherentWeighed genesis chain :=
  h.invariant (CoherentWeighed genesis)
    (fun _ _ _ created ↦
      ⟨withJournalCapacities_coherent created, withJournalCapacities_weighed created⟩)
    (fun _ _ hc hfewer ↦ hfewer.coherentWeighed hc)
    (fun order _ _ hc hfits ↦ connectAlone_coherentWeighed hc order hfits)
    (fun _ _ hc ↦ ⟨hc.1.congr rfl rfl rfl rfl, hc.2.congr rfl rfl rfl⟩)
    (fun _ _ hc ↦ ⟨hc.1.congr rfl rfl rfl rfl, hc.2.congr rfl rfl rfl⟩)

/-! ## How the tip moves -/

/-- A later state of the active chain: an extension of the earlier one, or one
with strictly more work. -/
def Advances (chain chain' : Chain) : Prop :=
  chain.blocks <+: chain'.blocks ∧ chain.totalWork.toNat ≤ chain'.totalWork.toNat ∨
    chain.totalWork.toNat < chain'.totalWork.toNat

omit [Crypto] [Features] in
theorem Advances.refl (chain : Chain) : Advances chain chain :=
  Or.inl ⟨List.prefix_rfl, le_rfl⟩

omit [Crypto] [Features] in
theorem Advances.trans {chain₁ chain₂ chain₃ : Chain} (h₁₂ : Advances chain₁ chain₂)
    (h₂₃ : Advances chain₂ chain₃) : Advances chain₁ chain₃ := by
  rcases h₁₂ with ⟨hpre, hle⟩ | hlt
  · rcases h₂₃ with ⟨hpre', hle'⟩ | hlt'
    · exact Or.inl ⟨hpre.trans hpre', hle.trans hle'⟩
    · exact Or.inr (hle.trans_lt hlt')
  · rcases h₂₃ with ⟨-, hle'⟩ | hlt'
    · exact Or.inr (hlt.trans_le hle')
    · exact Or.inr (hlt.trans hlt')

/-- Connecting a block that does not extend the tip changes the tip only to
that block, and only if its work exceeds the total before. -/
theorem connectAlone_displaces (h : CoherentWeighed genesis chain) (order : OrphanOrder)
    {block : Block} (hfits : WorkFits chain block)
    (htip : block.header.prevBlockhash ≠ chain.tipHash)
    (hmoved : (connectAlone order block chain).2.tipHash ≠ chain.tipHash) :
    (connectAlone order block chain).2.tipHash = block.hash ∧
      ∃ work, (connectAlone order block chain).2.workOf block.hash = some work ∧
        chain.totalWork.toNat < work.toNat := by
  have hafter := (connectAlone_coherentWeighed h order hfits).2
  rw [connectAlone_eq] at hmoved hafter ⊢
  cases hadm : chain.admission block with
  | error e =>
      rw [hadm] at hmoved
      exact (hmoved rfl).elim
  | ok found =>
      rw [hadm] at hmoved hafter
      cases found with
      | none =>
          obtain ⟨orphans, seq, journal, heq, -⟩ := insertOrphan_spec order chain block
          simp only [heq] at hmoved
          exact (hmoved rfl).elim
      | some pair =>
          have hplace := place_placement h.1.indexed (admission_some_iff.mp hadm)
          simp only at hmoved hafter ⊢
          generalize chain.place block pair.1 pair.2 = outcome at *
          cases hplace with
          | extended tip => exact (htip tip).elim
          | side _ _ => exact (hmoved rfl).elim
          | failed _ _ _ _ _ _ _ _ => exact (hmoved rfl).elim
          | reorganized tip heavier forks connects =>
              have hnew := forks.connects_tipHash connects
              have htotal := hafter.total
              rw [ChainWork.le_iff, Nat.not_le] at heavier
              refine ⟨hnew, _, ?_, heavier⟩
              rw [← hnew]
              exact htotal

theorem connectAlone_advances (h : CoherentWeighed genesis chain) (order : OrphanOrder)
    {block : Block} (hfits : WorkFits chain block) :
    Advances chain (connectAlone order block chain).2 := by
  rw [connectAlone_eq]
  cases hadm : chain.admission block with
  | error e => exact Advances.refl chain
  | ok found =>
      cases found with
      | none =>
          obtain ⟨orphans, seq, journal, heq, -⟩ := insertOrphan_spec order chain block
          simp only [heq]
          exact Advances.refl chain
      | some pair =>
          have hadmitted := admission_some_iff.mp hadm
          have hplace := place_placement h.1.indexed hadmitted
          simp only
          generalize chain.place block pair.1 pair.2 = outcome at *
          cases hplace with
          | extended tip =>
              have htotal := h.2.total
              rw [← tip, workOf, hadmitted.parent_known, Option.map_some] at htotal
              refine Or.inl ⟨List.prefix_append _ _, ?_⟩
              change chain.totalWork.toNat ≤ (pair.1.work.add pair.2).toNat
              rw [ChainWork.toNat_add_of_lt (hfits _ _ hadmitted), ← Option.some.inj htotal]
              omega
          | side _ _ => exact Advances.refl chain
          | failed _ _ _ _ _ _ _ _ => exact Advances.refl chain
          | reorganized _ heavier _ _ =>
              rw [ChainWork.le_iff, Nat.not_le] at heavier
              exact Or.inr heavier

theorem connectBlock_advances (h : CoherentWeighed genesis chain) (order : OrphanOrder)
    (block : Block) (hfits : ∀ a ∈ activations order block chain, WorkFits a.1 a.2) :
    Advances chain (connectBlock order block chain).2 := by
  have hinv := connectBlock_induction order block chain
    (fun current ↦ CoherentWeighed genesis current ∧ Advances chain current)
    (by
      rintro current _ ⟨hcurrent, hadvances⟩ hfewer
      refine ⟨hfewer.coherentWeighed hcurrent, ?_⟩
      obtain ⟨orphans, rfl, -⟩ := hfewer
      exact hadvances)
    (by
      rintro current b ⟨hcurrent, hadvances⟩ hmem
      exact ⟨connectAlone_coherentWeighed hcurrent order (hfits _ hmem),
        hadvances.trans (connectAlone_advances hcurrent order (hfits _ hmem))⟩)
    ⟨h, Advances.refl chain⟩
  exact hinv.2

theorem activations_coherentWeighed (h : CoherentWeighed genesis chain) (order : OrphanOrder)
    (block : Block) (hfits : ∀ a ∈ activations order block chain, WorkFits a.1 a.2) :
    ∀ a ∈ activations order block chain, CoherentWeighed genesis a.1 :=
  activations_invariant order block chain (CoherentWeighed genesis)
    (fun _ _ hc hfewer ↦ hfewer.coherentWeighed hc)
    (fun _ _ hc hmem ↦ connectAlone_coherentWeighed hc order (hfits _ hmem)) h

/-- Fork choice in every run whose cumulative work fits in 256 bits. -/
theorem reachable_fork_choice (h : ReachableWith WorkFits genesis chain) :
    (∃ tip entry, chain.blocks.getLast? = some tip ∧
      chain.known.lookup tip.hash = some entry ∧ entry.work = chain.totalWork) ∧
    (∀ hash entry, chain.known.lookup hash = some entry → hash ≠ genesis.hash →
      ∃ parent work, chain.known.lookup entry.block.header.prevBlockhash = some parent ∧
        blockWork entry.block.header.bits = .ok work ∧
          entry.work.toNat = parent.work.toNat + work.toNat) ∧
    (∀ hash entry, chain.known.lookup hash = some entry →
      entry.work.toNat ≤ chain.totalWork.toNat) ∧
    ∀ order block, (∀ a ∈ activations order block chain, WorkFits a.1 a.2) →
      (∀ a ∈ activations order block chain, a.2.header.prevBlockhash ≠ a.1.tipHash →
        (connectAlone order a.2 a.1).2.tipHash ≠ a.1.tipHash →
          (connectAlone order a.2 a.1).2.tipHash = a.2.hash ∧
            ∃ entry, (connectAlone order a.2 a.1).2.known.lookup a.2.hash = some entry ∧
              a.1.totalWork.toNat < entry.work.toNat) ∧
      (chain.blocks <+: (connectBlock order block chain).2.blocks ∨
        chain.totalWork.toNat < (connectBlock order block chain).2.totalWork.toNat) := by
  have hc := h.coherentWeighed
  refine ⟨?_, ?_, ?_, ?_⟩
  · obtain ⟨keep, tip, entry, hblocks, htipHash, hentry, -, -⟩ := hc.1.indexed.exists_tip
    refine ⟨tip, entry, by simp [hblocks], hentry, ?_⟩
    have htotal := hc.2.total
    rw [htipHash, workOf, hentry] at htotal
    exact Option.some.inj htotal
  · intro hash entry hentry hne
    rcases hc.2.linked hash entry hentry with hgen | ⟨below, work, hbelow, hwork, hsum⟩
    · exact (hne hgen).elim
    · obtain ⟨parent, hparent, rfl⟩ := Option.map_eq_some_iff.mp hbelow
      exact ⟨parent, work, hparent, hwork, hsum⟩
  · intro hash entry hentry
    exact hc.2.heaviest hash entry.work (by rw [workOf, hentry, Option.map_some])
  · intro order block hfits
    refine ⟨?_, ?_⟩
    · intro a ha htip hmoved
      have hstate := activations_coherentWeighed hc order block hfits a ha
      obtain ⟨hnew, work, hwork, hlt⟩ :=
        connectAlone_displaces hstate order (hfits a ha) htip hmoved
      obtain ⟨entry, hentry, rfl⟩ := Option.map_eq_some_iff.mp hwork
      exact ⟨hnew, entry, hentry, hlt⟩
    · exact (connectBlock_advances hc order block hfits).imp_left And.left

end Chain

end Bitrst

namespace Bitrst.Sample

theorem workFits_of_admitted {base : Chain} {block : Block} {parent : BlockMeta}
    (hadm : Chain.Admitted base block parent easyWork)
    (hfits : parent.work.toNat + easyWork.toNat < 2 ^ 256) : Chain.WorkFits base block := by
  intro found work hfound
  obtain ⟨rfl, rfl⟩ := hadm.unique hfound
  exact hfits

theorem switched_workFits : Chain.ReachableWith Chain.WorkFits genesis
    (switched (grown first) first sideNext) := by
  apply switched_reachable
  · exact workFits_of_admitted first_opens.admitted (by decide +kernel)
  · exact workFits_of_admitted first_splits.admitted (by decide +kernel)
  · exact workFits_of_admitted sideNext_challenges.1.admitted (by decide +kernel)

/-- After a reorganisation the tip has the work of its branch, and the block that it replaced has
no more. -/
theorem switched_fork_choice :
    (∃ tip entry, (switched (grown first) first sideNext).blocks.getLast? = some tip ∧
      (switched (grown first) first sideNext).known.lookup tip.hash = some entry ∧
        entry.work = (switched (grown first) first sideNext).totalWork) ∧
      ∀ entry, (switched (grown first) first sideNext).known.lookup first.hash = some entry →
        entry.work.toNat ≤ (switched (grown first) first sideNext).totalWork.toNat := by
  obtain ⟨htip, -, hheaviest, -⟩ := Chain.reachable_fork_choice switched_workFits
  exact ⟨htip, hheaviest first.hash⟩

end Bitrst.Sample
