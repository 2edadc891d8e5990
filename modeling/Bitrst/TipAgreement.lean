import Bitrst.Branch
import Bitrst.ForkChoice
import Bitrst.InvalidBlocks
import Bitrst.UtxoReplay

/-!
# What two nodes agree on

Nodes never exchange their state, only blocks.  What a chain holds about its
active blocks is a function of its tip: two chains on one genesis block that have
the same tip have the same blocks, outputs, work and undo data, whatever either of
them has seen besides.  Chains that know the same blocks have the same total work,
and the same tip unless two blocks share it.

Two blocks with one hash are excluded, which the checks of a block do not do.
-/

namespace Bitrst

open Support

variable [Crypto] [Features]

namespace Chain

variable {genesis : Block} {chain chain' : Chain} {block : Block}

/-! ## Runs -/

/-- Work fits in 256 bits, and reorganisations lose no output. -/
def Regular (chain : Chain) (block : Block) : Prop :=
  WorkFits chain block ∧ UndoExact chain block

theorem ReachableWith.mono {cond cond' : Chain → Block → Prop}
    (hcond : ∀ chain block, cond chain block → cond' chain block)
    (h : ReachableWith cond genesis chain) : ReachableWith cond' genesis chain := by
  induction h with
  | start created => exact .start created
  | connect order block _ returned meets ih =>
      exact .connect order block ih returned fun a ha ↦ hcond _ _ (meets a ha)
  | setTime networkTime _ ih => exact .setTime networkTime ih
  | takeEvents _ ih => exact .takeEvents ih

omit [Features] in
/-- The genesis block has its own work. -/
def Founded (genesis : Block) (chain : Chain) : Prop :=
  ∃ entry, chain.known.lookup genesis.hash = some entry ∧
    blockWork genesis.header.bits = .ok entry.work

theorem founded_kept : KeptByUpdates genesis (Founded genesis) where
  push chain block work h hpush _ hc := by
    obtain ⟨entry, hentry, hwork⟩ := hc
    have hne : genesis.hash ≠ block.hash := fun heq ↦
      h.notMem_active_of_pushable hpush (heq ▸ (h.active_iff _).mpr ⟨genesis, h.genesis_mem, rfl⟩)
    exact ⟨entry, by rw [pushTip_known, if_neg hne, hentry], hwork⟩
  pop _ _ _ _ _ _ hc := hc
  store chain block parent work hadm hc := by
    obtain ⟨entry, hentry, hwork⟩ := hc
    have hne : genesis.hash ≠ block.hash := fun heq ↦ by
      rw [heq, hadm.unknown] at hentry
      cases hentry
    exact ⟨entry, by rw [storeSide_known, if_neg hne, hentry], hwork⟩
  restore _ _ _ _ hfailed := hfailed
  event _ _ _ hc := hc
  same _ _ hsame hc := by
    unfold Founded
    rwa [hsame.known]

theorem Reachable.founded (h : Reachable genesis chain) : Founded genesis chain := by
  refine founded_kept.reachable ?_ (fun _ _ hc ↦ hc) h
  intro networkTime capacity chain created
  obtain ⟨work, hwork, rfl⟩ := withJournalCapacities_spec created
  refine ⟨⟨genesis, 0, work, UtxoSet.transactionUndos ∅ genesis.transactions⟩, ?_, hwork⟩
  change (pushTip (blank networkTime capacity) genesis 0 work).known.lookup genesis.hash = _
  rw [pushTip_known, if_pos rfl]
  rfl

/-- What a regular run keeps. -/
structure Kept (genesis : Block) (chain : Chain) : Prop where
  indexed : Indexed genesis chain
  weighed : Weighed genesis chain
  founded : Founded genesis chain
  replayed : Replayed chain

theorem ReachableWith.kept (h : ReachableWith Regular genesis chain) : Kept genesis chain where
  indexed := h.coherent.indexed
  weighed := (h.mono fun _ _ hcond ↦ hcond.1).coherentWeighed.2
  founded := h.reachable.founded
  replayed := (h.mono fun _ _ hcond ↦ hcond.2).replayed.2

/-! ## Blocks that both know -/

/-- No hash is that of different blocks of the two chains. -/
def OneBlockEach (chain chain' : Chain) : Prop :=
  ∀ hash entry entry', chain.known.lookup hash = some entry →
    chain'.known.lookup hash = some entry' → entry'.block = entry.block

omit [Crypto] [Features] in
theorem OneBlockEach.symm (h : OneBlockEach chain chain') : OneBlockEach chain' chain :=
  fun hash entry entry' hentry hentry' ↦ (h hash entry' entry hentry' hentry).symm

omit [Features] in
/-- A block that both chains know has one branch, one height and one work. -/
theorem Kept.common (h : Kept genesis chain) (h' : Kept genesis chain')
    (hone : OneBlockEach chain chain') {hash : Hash256} {entry entry' : BlockMeta}
    (hentry : chain.known.lookup hash = some entry)
    (hentry' : chain'.known.lookup hash = some entry') :
    chain'.branch hash = chain.branch hash ∧ entry'.height = entry.height ∧
      entry'.work = entry.work := by
  induction hn : entry.height using Nat.strong_induction_on generalizing hash entry entry' with
  | _ n ih =>
    by_cases hgen : hash = genesis.hash
    · obtain ⟨root, hroot, -, hheight⟩ := h.indexed.genesis_known
      obtain ⟨root', hroot', -, hheight'⟩ := h'.indexed.genesis_known
      obtain ⟨base, hbase, hwork⟩ := h.founded
      obtain ⟨base', hbase', hwork'⟩ := h'.founded
      rw [hgen] at hentry hentry' ⊢
      obtain rfl := Option.some.inj (hroot.symm.trans hentry)
      obtain rfl := Option.some.inj (hroot'.symm.trans hentry')
      obtain rfl := Option.some.inj (hbase.symm.trans hentry)
      obtain rfl := Option.some.inj (hbase'.symm.trans hentry')
      refine ⟨?_, ?_, Except.ok.inj (hwork'.symm.trans hwork)⟩
      · rw [h'.indexed.branch_genesis, h.indexed.branch_genesis]
      · rw [hheight', ← hn, hheight]
    · have hblock := hone hash entry entry' hentry hentry'
      obtain ⟨parent, hparent, hheight⟩ :=
        (h.indexed.known_parent hash entry hentry).resolve_left hgen
      obtain ⟨parent', hparent', hheight'⟩ :=
        (h'.indexed.known_parent hash entry' hentry').resolve_left hgen
      rw [hblock] at hparent'
      obtain ⟨hbranch, hbelow, hwork⟩ := ih parent.height (by omega) hparent hparent' rfl
      refine ⟨?_, by omega, ?_⟩
      · rw [h'.indexed.branch_succ hentry' hgen, h.indexed.branch_succ hentry hgen, hblock, hbranch]
      · obtain ⟨below, own, hfound, hown, hsum⟩ :=
          (h.weighed.linked hash entry hentry).resolve_left hgen
        obtain ⟨below', own', hfound', hown', hsum'⟩ :=
          (h'.weighed.linked hash entry' hentry').resolve_left hgen
        rw [workOf, hparent, Option.map_some] at hfound
        rw [hblock, workOf, hparent', Option.map_some] at hfound'
        rw [hblock] at hown'
        obtain rfl := Option.some.inj hfound
        obtain rfl := Option.some.inj hfound'
        obtain rfl := Except.ok.inj (hown.symm.trans hown')
        apply ChainWork.toNat_injective
        rw [hsum', hsum, hwork]

omit [Features] in
/-- The ancestors of a block that both chains know are known to both. -/
theorem Kept.common_times (h : Kept genesis chain) (h' : Kept genesis chain')
    (hone : OneBlockEach chain chain')
    (hroot : chain.known.lookup genesis.header.prevBlockhash = none)
    (hroot' : chain'.known.lookup genesis.header.prevBlockhash = none) (n : ℕ) {hash : Hash256}
    {entry entry' : BlockMeta} (hentry : chain.known.lookup hash = some entry)
    (hentry' : chain'.known.lookup hash = some entry') :
    chain'.pastTimes n hash = chain.pastTimes n hash := by
  induction n generalizing hash entry entry' with
  | zero => rfl
  | succ n ih =>
      have hblock := hone hash entry entry' hentry hentry'
      rw [pastTimes, pastTimes, hentry, hentry']
      simp only [hblock]
      by_cases hgen : hash = genesis.hash
      · obtain ⟨root, hfound, hgenesis, -⟩ := h.indexed.genesis_known
        rw [hgen] at hentry
        obtain rfl := Option.some.inj (hfound.symm.trans hentry)
        rw [hgenesis]
        cases n with
        | zero => rfl
        | succ n => rw [pastTimes, pastTimes, hroot, hroot']
      · obtain ⟨parent, hparent, -⟩ := (h.indexed.known_parent hash entry hentry).resolve_left hgen
        obtain ⟨parent', hparent', -⟩ :=
          (h'.indexed.known_parent hash entry' hentry').resolve_left hgen
        rw [hblock] at hparent'
        rw [ih hparent hparent']

/-! ## Chains with one tip -/

/-- The chains agree in everything that belongs to the active blocks. -/
structure SameTip (chain chain' : Chain) : Prop extends SameActive chain chain' where
  undo : ∀ hash ∈ chain.activeHashes, chain'.undoOf hash = chain.undoOf hash

omit [Features] in
/-- A tip has one chain. -/
theorem Kept.sameTip (h : Kept genesis chain) (h' : Kept genesis chain')
    (hone : OneBlockEach chain chain') (htip : chain'.tipHash = chain.tipHash) :
    SameTip chain chain' := by
  obtain ⟨keep, tip, entry, hsplit, htipHash, hentry, -⟩ := h.indexed.exists_tip
  obtain ⟨keep', tip', entry', hsplit', htipHash', hentry', -⟩ := h'.indexed.exists_tip
  rw [← htipHash] at hentry
  rw [← htipHash', htip] at hentry'
  obtain ⟨hbranch, -, hwork⟩ := h.common h' hone hentry hentry'
  have hblocks : chain'.blocks = chain.blocks := by
    rw [← h'.indexed.branch_tip, htip, hbranch, h.indexed.branch_tip]
  obtain ⟨ledger, hfollows, hexact⟩ := h.replayed
  obtain ⟨ledger', hfollows', hexact'⟩ := h'.replayed
  have hledger : ledger' = ledger := hexact.ext hexact' <|
    hfollows'.blocks.symm.trans (hblocks.trans hfollows.blocks)
  rw [hledger] at hfollows'
  refine ⟨⟨hblocks, ?_, hfollows'.utxo.trans hfollows.utxo.symm, ?_⟩, fun hash hactive ↦ ?_⟩
  · ext hash
    rw [h'.indexed.active_iff, h.indexed.active_iff, hblocks]
  · have htotal := h.weighed.total
    have htotal' := h'.weighed.total
    rw [workOf, hentry, Option.map_some] at htotal
    rw [htip, workOf, hentry', Option.map_some] at htotal'
    rw [← Option.some.inj htotal', ← Option.some.inj htotal, hwork]
  · obtain ⟨b, hb, rfl⟩ := (h.indexed.active_iff hash).mp hactive
    rw [hfollows.blocks, UndoStack.items] at hb
    obtain ⟨frame, hframe, rfl⟩ := List.mem_map.mp hb
    rw [hfollows'.undo frame hframe, hfollows.undo frame hframe]

/-- A new block on the tip. No orphan waits for it, or for a block that is known. -/
structure Next (chain : Chain) (block : Block) : Prop where
  tip : block.header.prevBlockhash = chain.tipHash
  unknown : chain.known.lookup block.hash = none
  not_orphan : chain.orphans.lookup block.hash = none
  none_ready : NoneReady chain
  not_awaited : ¬ Awaited chain block.hash

/-- Such a block is refused, or becomes the tip and brings no orphan with it. -/
theorem Next.connectBlock_cases (h : Next chain block) (hindexed : Indexed genesis chain)
    (order : OrphanOrder) :
    (∃ stop, chain.admission block = .error stop ∧
      connectBlock order block chain = (.error stop, chain)) ∨
    ∃ parent work, chain.admission block = .ok (some (parent, work)) ∧
      connectBlock order block chain =
        (.ok (.connected (parent.height + 1) block.hash), chain.extendTip block parent work) := by
  rw [connectBlock_eq, connectAlone_eq]
  cases hadmission : chain.admission block with
  | error stop => exact .inl ⟨stop, rfl, rfl⟩
  | ok admitted =>
      cases admitted with
      | none =>
          obtain ⟨keep, tip, entry, -, htipHash, hentry, -⟩ := hindexed.exists_tip
          have hparent := (admission_none_iff.mp hadmission).2.2.2
          rw [h.tip, htipHash, hentry] at hparent
          cases hparent
      | some pair =>
          have hnone := extendTip_noneReady pair.1 pair.2 h.none_ready h.not_awaited
          refine .inr ⟨pair.1, pair.2, rfl, ?_⟩
          simp only [place_extended h.tip, ConnectResult.becameTip, if_true,
            processOrphans_of_noneReady order hnone]

/-- Chains with one tip check a block on it alike. -/
theorem Kept.next_admission (h : Kept genesis chain) (h' : Kept genesis chain')
    (hone : OneBlockEach chain chain') (htip : chain'.tipHash = chain.tipHash)
    (htime : chain'.networkTime = chain.networkTime)
    (hroot : chain.known.lookup genesis.header.prevBlockhash = none)
    (hroot' : chain'.known.lookup genesis.header.prevBlockhash = none)
    (hnext : Next chain block) (hnext' : Next chain' block) :
    AdmittedAlike (chain.admission block) (chain'.admission block) := by
  have hsame := h.sameTip h' hone htip
  obtain ⟨-, tip, entry, -, htipHash, hentry, -⟩ := h.indexed.exists_tip
  obtain ⟨-, tip', entry', -, htipHash', hentry', -⟩ := h'.indexed.exists_tip
  rw [← htipHash, ← hnext.tip] at hentry
  rw [← htipHash', ← hnext'.tip] at hentry'
  obtain ⟨-, hheight, -⟩ := h.common h' hone hentry hentry'
  have hvalid : chain'.validateBlockForParent block (some entry'.block)
      (some block.header.prevBlockhash) (entry'.height + 1) =
        chain.validateBlockForParent block (some entry.block)
          (some block.header.prevBlockhash) (entry.height + 1) := by
    have hbits : chain'.expectedBits (entry.height + 1) block.header.bits =
        chain.expectedBits (entry.height + 1) block.header.bits := by
      rw [expectedBits, expectedBits, hsame.blocks]
    have hmedian : chain'.medianPastTimeBefore block.header.prevBlockhash =
        chain.medianPastTimeBefore block.header.prevBlockhash := by
      rw [medianPastTimeBefore, medianPastTimeBefore,
        h.common_times h' hone hroot hroot' 11 hentry hentry']
    unfold validateBlockForParent validateBlockHeaderForParent
    simp only [hheight, hbits, hmedian, htime, hsame.utxo]
  unfold Chain.admission
  simp only [hnext.unknown, hnext'.unknown, hnext.not_orphan, hnext'.not_orphan, hentry, hentry',
    hvalid]
  cases validateBlockLimits block with
  | error e => exact .refused _
  | ok _ =>
      simp only [Option.isSome_none, Bool.false_eq_true, or_self, if_false]
      cases chain.validateBlockForParent block (some entry.block)
        (some block.header.prevBlockhash) (entry.height + 1) with
      | error stop => exact .refused stop
      | ok _ =>
          simp only
          cases blockWork block.header.bits with
          | error e => exact .refused _
          | ok work => exact .admitted entry entry' work

/-- Nodes whose tips are the same hold the same active blocks, outputs, work and undo data, and
give the same answer to a new block on their tip, which they then have in common again. -/
theorem same_tip_agrees (h : ReachableWith Regular genesis chain)
    (h' : ReachableWith Regular genesis chain') (hone : OneBlockEach chain chain')
    (htip : chain'.tipHash = chain.tipHash) :
    SameTip chain chain' ∧
      ∀ order order' block, chain'.networkTime = chain.networkTime →
        chain.known.lookup genesis.header.prevBlockhash = none →
          chain'.known.lookup genesis.header.prevBlockhash = none →
            Next chain block → Next chain' block →
              (connectBlock order' block chain').1 = (connectBlock order block chain).1 ∧
                (connectBlock order' block chain').2.tipHash =
                  (connectBlock order block chain).2.tipHash := by
  refine ⟨h.kept.sameTip h'.kept hone htip, ?_⟩
  intro order order' block htime hroot hroot' hnext hnext'
  have halike := h.kept.next_admission h'.kept hone htip htime hroot hroot' hnext hnext'
  rcases hnext.connectBlock_cases h.kept.indexed order with
      ⟨stop, hrefused, hresult⟩ | ⟨parent, work, hadmission, hresult⟩ <;>
    rcases hnext'.connectBlock_cases h'.kept.indexed order' with
      ⟨stop', hrefused', hresult'⟩ | ⟨parent', work', hadmission', hresult'⟩
  · rw [hrefused, hrefused'] at halike
    cases halike
    rw [hresult, hresult']
    exact ⟨rfl, htip⟩
  · rw [hrefused, hadmission'] at halike
    cases halike
  · rw [hadmission, hrefused'] at halike
    cases halike
  · rw [hadmission, hadmission'] at halike
    cases halike
    have hadm := admission_some_iff.mp hadmission
    have hadm' := admission_some_iff.mp hadmission'
    obtain ⟨-, hheight, -⟩ := h.kept.common h'.kept hone hadm.parent_known hadm'.parent_known
    have hpushed : ∀ (c : Chain) (below : BlockMeta),
        (c.extendTip block below work).tipHash = block.hash := fun c below ↦
      tipHash_of_append c.blocks rfl
    rw [hresult, hresult', hpushed, hpushed, hheight]
    exact ⟨rfl, rfl⟩

/-! ## Chains that know the same blocks -/

/-- No other known block has as much work as the tip. -/
def Undisputed (chain : Chain) : Prop :=
  ∀ hash work, chain.workOf hash = some work → work = chain.totalWork → hash = chain.tipHash

omit [Features] in
theorem Kept.totalWork_le (h : Kept genesis chain) (h' : Kept genesis chain')
    (hone : OneBlockEach chain chain')
    (hknown : ∀ hash, chain.known.lookup hash = none → chain'.known.lookup hash = none) :
    chain'.totalWork.toNat ≤ chain.totalWork.toNat ∧
      chain.workOf chain'.tipHash = some chain'.totalWork := by
  obtain ⟨-, tip', entry', -, htipHash', hentry', -⟩ := h'.indexed.exists_tip
  rw [← htipHash'] at hentry'
  have hsome : chain.known.lookup chain'.tipHash ≠ none := fun hnone ↦ by
    rw [hknown _ hnone] at hentry'
    cases hentry'
  obtain ⟨entry, hentry⟩ := Option.ne_none_iff_exists'.mp hsome
  obtain ⟨-, -, hwork⟩ := h.common h' hone hentry hentry'
  have htotal' := h'.weighed.total
  rw [workOf, hentry', Option.map_some] at htotal'
  have hfound : chain.workOf chain'.tipHash = some chain'.totalWork := by
    rw [workOf, hentry, Option.map_some, ← hwork]
    exact htotal'
  exact ⟨h.weighed.heaviest _ _ hfound, hfound⟩

omit [Features] in
/-- Chains that know the same blocks have the same total work, and if no other block has as much
work as the tip they have the same tip. -/
theorem Kept.sameKnown (h : Kept genesis chain) (h' : Kept genesis chain')
    (hone : OneBlockEach chain chain')
    (hknown : ∀ hash, chain'.known.lookup hash = none ↔ chain.known.lookup hash = none) :
    chain'.totalWork = chain.totalWork ∧ (Undisputed chain → chain'.tipHash = chain.tipHash) := by
  obtain ⟨hle, hfound⟩ := h.totalWork_le h' hone fun hash ↦ (hknown hash).mpr
  obtain ⟨hge, -⟩ := h'.totalWork_le h hone.symm fun hash ↦ (hknown hash).mp
  have htotal := ChainWork.toNat_injective (hle.antisymm hge)
  exact ⟨htotal, fun hundisputed ↦ hundisputed _ _ hfound htotal⟩

omit [Features] in
theorem Kept.sameTree (h : Kept genesis chain) (h' : Kept genesis chain')
    (hone : OneBlockEach chain chain')
    (hknown : ∀ hash, chain'.known.lookup hash = none ↔ chain.known.lookup hash = none)
    (htip : chain'.tipHash = chain.tipHash) (htime : chain'.networkTime = chain.networkTime) :
    SameTree chain chain' := by
  have hsame := h.sameTip h' hone htip
  refine ⟨hsame.toSameActive, fun hash ↦ ?_, hsame.undo, htime⟩
  rw [recorded, recorded]
  cases hentry : chain.known.lookup hash with
  | none => rw [(hknown hash).mpr hentry]
  | some entry =>
      have hsome : chain'.known.lookup hash ≠ none := fun hnone ↦ by
        rw [(hknown hash).mp hnone] at hentry
        cases hentry
      obtain ⟨entry', hentry'⟩ := Option.ne_none_iff_exists'.mp hsome
      obtain ⟨-, hheight, hwork⟩ := h.common h' hone hentry hentry'
      rw [hentry', Option.map_some, Option.map_some, BlockMeta.bare, BlockMeta.bare,
        hone hash entry entry' hentry hentry', hheight, hwork]

omit [Features] in
theorem Kept.summed (h : Kept genesis chain) : Summed genesis chain := by
  intro hash entry hentry
  apply (h.weighed.linked hash entry hentry).imp_right
  rintro ⟨below, own, hbelow, hown, hsum⟩
  obtain ⟨parent, hparent, rfl⟩ := Option.map_eq_some_iff.mp hbelow
  refine ⟨parent, own, hparent, hown, ChainWork.toNat_injective ?_⟩
  rw [hsum, ChainWork.toNat_add_of_lt (hsum ▸ entry.work.toNat_lt)]

/-- Runs beside each other answer the same blocks alike. -/
theorem Beside.answers_eq (h : Beside genesis Set.univ chain chain')
    {calls : List (OrphanOrder × Block)} (hmeets : DeliverMeets HasRoom calls chain) :
    ∃ run : List (OrphanOrder × Block), run.map Prod.snd = calls.map Prod.snd ∧
      answers run chain' = answers calls chain ∧
        Beside genesis Set.univ (Chain.deliverAll calls chain) (Chain.deliverAll run chain') := by
  induction calls generalizing chain chain' with
  | nil => exact ⟨[], rfl, rfl, h⟩
  | cons call rest ih =>
      obtain ⟨order, block⟩ := call
      obtain ⟨order', hresult, hnext⟩ := h.connectBlock order (Set.mem_univ _) hmeets.1
      obtain ⟨run, hrun, hanswers, hdone⟩ := ih hnext hmeets.2
      refine ⟨(order', block) :: run, ?_, ?_, hdone⟩
      · rw [List.map_cons, List.map_cons, hrun]
      · rw [answers, answers, hanswers, hresult]

/-- Two runs answer every block alike and end in chains that agree. -/
structure RunAlike (calls run : List (OrphanOrder × Block)) (chain chain' : Chain) : Prop where
  answers : Chain.answers run chain' = Chain.answers calls chain
  tree : SameTree (deliverAll calls chain) (deliverAll run chain')

/-- Nodes that know the same blocks have the same total work, also if they were told of them in
different orders.  If no two of the blocks share the most work, the nodes agree in everything
about the chain.  With the same blocks waiting they answer all later blocks alike and still
agree afterwards, in some iteration orders of the second node's orphan map, and in any if it
promotes at most one orphan at a time. -/
theorem same_blocks_converge (h : ReachableWith Regular genesis chain)
    (h' : ReachableWith Regular genesis chain') (hone : OneBlockEach chain chain')
    (hknown : ∀ hash, chain'.known.lookup hash = none ↔ chain.known.lookup hash = none) :
    chain'.totalWork = chain.totalWork ∧
      (Undisputed chain → chain'.networkTime = chain.networkTime →
        SameTree chain chain' ∧
          ((∀ hash, (chain'.orphans.lookup hash).map OrphanEntry.block =
              (chain.orphans.lookup hash).map OrphanEntry.block) →
            ∀ calls, DeliverMeets HasRoom calls chain →
              (∃ run : List (OrphanOrder × Block), run.map Prod.snd = calls.map Prod.snd ∧
                RunAlike calls run chain chain') ∧
              ∀ run : List (OrphanOrder × Block), run.map Prod.snd = calls.map Prod.snd →
                DeliverMeets (fun chain block ↦ Promotes chain block → OneAtATime chain block)
                  run chain' → RunAlike calls run chain chain')) := by
  obtain ⟨htotal, htip⟩ := h.kept.sameKnown h'.kept hone hknown
  refine ⟨htotal, fun hundisputed htime ↦ ?_⟩
  have htree := h.kept.sameTree h'.kept hone hknown (htip hundisputed) htime
  refine ⟨htree, fun hpool calls hmeets ↦ ?_⟩
  have hordered := h.reachable.ordered
  have hordered' := h'.reachable.ordered
  have hbeside : Beside genesis Set.univ chain chain' :=
    ⟨hordered.coherent, h.kept.summed, hordered.keyed, htree, fun _ _ ↦ Set.mem_univ _,
      ⟨fun hash _ ↦ hpool hash, fun hash hnot ↦ absurd (Set.mem_univ hash) hnot⟩,
      fun hash _ _ hnot ↦ absurd (Set.mem_univ hash) hnot⟩
  obtain ⟨run, hrun, hanswers, hdone⟩ := hbeside.answers_eq hmeets
  refine ⟨⟨run, hrun, hanswers, hdone.tree⟩, fun other hsame honce ↦ ?_⟩
  have hblocks := hsame.trans hrun.symm
  refine ⟨(hordered'.answers_eq other run hblocks honce).trans hanswers, ?_⟩
  rw [hordered'.deliverAll_eq other run hblocks honce]
  exact hdone.tree

end Chain

end Bitrst

namespace Bitrst.Sample

open Support

variable {base : Chain} {block : Block} {parent : BlockMeta}

/-- A block that is not reorganised to makes no exception. -/
theorem regular_of_quiet (hadm : Chain.Admitted base block parent easyWork)
    (hfits : parent.work.toNat + easyWork.toNat < 2 ^ 256)
    (hquiet : block.header.prevBlockhash = base.tipHash ∨
      (parent.work.add easyWork).le base.totalWork) : Chain.Regular base block := by
  refine ⟨workFits_of_admitted hadm hfits, ?_⟩
  intro found work path keep fork post hfound htip hheavier
  obtain ⟨rfl, rfl⟩ := hadm.unique hfound
  exact absurd hquiet (not_or.mpr ⟨htip, hheavier⟩)

/-- The block passes on a chain without orphans. -/
structure Passes (base : Chain) (block : Block) (parent : BlockMeta) : Prop where
  orphans : base.orphans = ∅
  bits : block.header.bits = easyBits
  fits : Chain.Fits base block parent
  work : parent.work.toNat + easyWork.toNat < 2 ^ 256

instance (base : Chain) (block : Block) (parent : BlockMeta) :
    Decidable (Passes base block parent) :=
  decidable_of_iff (base.orphans.entries.isEmpty ∧ block.header.bits = easyBits ∧
      Chain.Fits base block parent ∧ parent.work.toNat + easyWork.toNat < 2 ^ 256)
    ⟨fun ⟨orphans, bits, fits, work⟩ ↦
        ⟨AList.ext (List.isEmpty_iff.mp orphans), bits, fits, work⟩,
      fun h ↦ ⟨h.orphans ▸ rfl, h.bits, h.fits, h.work⟩⟩

namespace Passes

theorem admitted (h : Passes base block parent) : Chain.Admitted base block parent easyWork :=
  h.fits.admitted (h.bits ▸ blockWork_easyBits)

theorem onTip (h : Passes base block parent) (htip : block.header.prevBlockhash = base.tipHash)
    (hrun : Chain.ReachableWith Chain.Regular genesis base) :
    Chain.ReachableWith Chain.Regular genesis (base.extendTip block parent easyWork) := by
  have hplace : base.place block parent easyWork = (.ok (.connected (parent.height + 1) block.hash),
      base.extendTip block parent easyWork) := Chain.place_extended htip
  have hnext := hrun.place order hrun.coherent.indexed h.orphans h.admitted
    (by rw [hplace]; simp [Returned]) (regular_of_quiet h.admitted h.work (.inl htip))
  rwa [hplace] at hnext

theorem aside (h : Passes base block parent) (htip : block.header.prevBlockhash ≠ base.tipHash)
    (hlighter : (parent.work.add easyWork).le base.totalWork)
    (hrun : Chain.ReachableWith Chain.Regular genesis base) :
    Chain.ReachableWith Chain.Regular genesis (base.storeSide block parent easyWork) := by
  have hplace : base.place block parent easyWork = (.ok (.sideChain (parent.height + 1) block.hash),
      base.storeSide block parent easyWork) := Chain.place_side htip hlighter
  have hnext := hrun.place order hrun.coherent.indexed h.orphans h.admitted
    (by rw [hplace]; simp [Returned]) (regular_of_quiet h.admitted h.work (.inr hlighter))
  rwa [hplace] at hnext

end Passes

theorem first_passes : Passes start first genesisMeta ∧ Passes (grown first) side genesisMeta := by
  decide +kernel

/-- A child of `first`. -/
def firstNext : Block := ⟨header firstHash coinId3 1003 0, [coin 3]⟩

theorem next_of_noOrphans (hnone : base.orphans = ∅)
    (htip : block.header.prevBlockhash = base.tipHash)
    (hunknown : base.known.lookup block.hash = none) : Chain.Next base block := by
  have hpool : ∀ hash, base.orphans.lookup hash = none := fun hash ↦ by
    rw [hnone]
    rfl
  refine ⟨htip, hunknown, hpool _, fun hash entry hentry ↦ ?_, ?_⟩
  · cases (hpool hash).symm.trans hentry
  · rintro ⟨hash, entry, hentry, -⟩
    cases (hpool hash).symm.trans hentry

theorem firstNext_unknown : (grown first).known.lookup firstNext.hash = none ∧
    (forked (grown first)).known.lookup firstNext.hash = none ∧
    (grown first).known.lookup genesis.header.prevBlockhash = none ∧
    (forked (grown first)).known.lookup genesis.header.prevBlockhash = none := by
  decide +kernel

theorem forked_same_tip : Chain.SameTip (grown first) (forked (grown first)) ∧
    (Chain.connectBlock order firstNext (forked (grown first))).1 =
      .ok (.connected 2 firstNext.hash) ∧
    (Chain.connectBlock order firstNext (forked (grown first))).2.tipHash =
      (Chain.connectBlock order firstNext (grown first)).2.tipHash := by
  obtain ⟨hfirst, hside⟩ := first_passes
  obtain ⟨hunknown, hunknown', hroot, hroot'⟩ := firstNext_unknown
  have hrun := hfirst.onTip first_opens.tip start_reachable
  have hone : Chain.OneBlockEach (grown first) (forked (grown first)) := by
    intro hash entry entry' hentry hentry'
    change (Chain.storeSide (grown first) side genesisMeta easyWork).known.lookup hash = _
      at hentry'
    rw [Chain.storeSide_known] at hentry'
    split at hentry'
    · rename_i hside
      have hunknown := first_splits.admitted.unknown
      rw [hside] at hentry
      exact absurd (hunknown.symm.trans hentry) (by simp)
    · exact congrArg BlockMeta.block (Option.some.inj (hentry'.symm.trans hentry))
  have htip : firstNext.header.prevBlockhash = (grown first).tipHash := by decide +kernel
  obtain ⟨hsame, hanswers⟩ := Chain.same_tip_agrees hrun
    (hside.aside first_splits.tip first_splits.lighter hrun) hone rfl
  obtain ⟨hanswer, hnext⟩ := hanswers order order firstNext rfl hroot hroot'
    (next_of_noOrphans rfl htip hunknown) (next_of_noOrphans rfl htip hunknown')
  have hconnects : (Chain.connectBlock order firstNext (grown first)).1 =
      .ok (.connected 2 firstNext.hash) := by decide +kernel
  exact ⟨hsame, hanswer.trans hconnects, hnext⟩

/-- The entry of the rival as a block of the active chain. -/
def sideTip : BlockMeta :=
  ⟨side, 1, easyWork.add easyWork, UtxoSet.transactionUndos start.utxo side.transactions⟩

/-- The later block of the rival branch was told of before the other branch. -/
def nextBefore : Chain :=
  ((grown side).extendTip sideNext sideTip easyWork).storeSide first genesisMeta easyWork

def nextAfter : Chain :=
  ((grown side).storeSide first genesisMeta easyWork).extendTip sideNext sideTip easyWork

theorem rival_run : Passes start side genesisMeta ∧ side.header.prevBlockhash = start.tipHash ∧
    Passes (grown side) first genesisMeta ∧ first.header.prevBlockhash ≠ (grown side).tipHash ∧
    (genesisMeta.work.add easyWork).le (grown side).totalWork ∧
    Passes (grown side) sideNext sideTip ∧ sideNext.header.prevBlockhash = (grown side).tipHash ∧
    Passes ((grown side).extendTip sideNext sideTip easyWork) first genesisMeta ∧
    first.header.prevBlockhash ≠ ((grown side).extendTip sideNext sideTip easyWork).tipHash ∧
    (genesisMeta.work.add easyWork).le
      ((grown side).extendTip sideNext sideTip easyWork).totalWork ∧
    Passes ((grown side).storeSide first genesisMeta easyWork) sideNext sideTip ∧
    sideNext.header.prevBlockhash =
      ((grown side).storeSide first genesisMeta easyWork).tipHash := by
  decide +kernel

def rivalHashes : List Hash256 := [genesis.hash, first.hash, side.hash, sideNext.hash]

theorem nextBefore_knows : nextBefore.known.keys = rivalHashes.toFinset ∧
    nextAfter.known.keys = rivalHashes.toFinset ∧
    rivalHashes.all (fun hash ↦ decide ((nextBefore.known.lookup hash).map BlockMeta.block =
      (nextAfter.known.lookup hash).map BlockMeta.block)) = true ∧
    rivalHashes.all (fun hash ↦ decide (nextAfter.workOf hash = some nextAfter.totalWork →
      hash = nextAfter.tipHash)) = true := by
  decide +kernel

theorem oneAtATime_of_noOrphans (hnone : base.orphans = ∅) : Chain.OneAtATime base block := by
  have hpool : ∀ hash, base.orphans.lookup hash = none := fun hash ↦ by
    rw [hnone]
    rfl
  refine ⟨fun hash entry _ _ hentry ↦ ?_, fun hash entry _ _ hentry ↦ ?_⟩
  · cases (hpool hash).symm.trans hentry
  · cases (hpool hash).symm.trans hentry

/-- The two nodes are told of one more block. -/
theorem nextBefore_sameTree : Chain.SameTree nextAfter nextBefore ∧
    Chain.RunAlike [(order, firstNext)] [(order, firstNext)] nextAfter nextBefore := by
  obtain ⟨hside, hsideTip, hfirst, hfirstTip, hfirstWork, hnext, hnextTip, hlate, hlateTip,
    hlateWork, hlast, hlastTip⟩ := rival_run
  obtain ⟨hbeforeKeys, hafterKeys, hblocks, hleads⟩ := nextBefore_knows
  have hrun := hside.onTip hsideTip start_reachable
  have hafter := hlast.onTip hlastTip (hfirst.aside hfirstTip hfirstWork hrun)
  have hbefore := hlate.aside hlateTip hlateWork (hnext.onTip hnextTip hrun)
  have hmem : ∀ hash entry, nextAfter.known.lookup hash = some entry →
      hash ∈ rivalHashes := fun hash entry hentry ↦ by
    rw [← List.mem_toFinset, ← hafterKeys]
    exact Finmap.mem_keys.mpr (Finmap.mem_of_lookup_eq_some hentry)
  have hone : Chain.OneBlockEach nextAfter nextBefore := by
    intro hash entry entry' hentry hentry'
    have hblock := of_decide_eq_true (List.all_eq_true.mp hblocks hash (hmem hash entry hentry))
    rw [hentry, hentry', Option.map_some, Option.map_some] at hblock
    exact Option.some.inj hblock
  have hknown : ∀ hash, nextBefore.known.lookup hash = none ↔
      nextAfter.known.lookup hash = none := fun hash ↦ by
    rw [Finmap.lookup_eq_none, Finmap.lookup_eq_none, ← Finmap.mem_keys, ← Finmap.mem_keys,
      hbeforeKeys, hafterKeys]
  have hundisputed : Chain.Undisputed nextAfter := by
    rintro hash work hwork rfl
    obtain ⟨entry, hentry, -⟩ := Option.map_eq_some_iff.mp hwork
    exact of_decide_eq_true (List.all_eq_true.mp hleads hash (hmem hash entry hentry)) hwork
  obtain ⟨htree, hlater⟩ :=
    (Chain.same_blocks_converge hafter hbefore hone hknown).2 hundisputed rfl
  obtain ⟨-, hany⟩ := hlater (fun _ ↦ rfl) [(order, firstNext)] ⟨fun _ ↦ by decide, trivial⟩
  exact ⟨htree, hany _ rfl ⟨fun _ ↦ oneAtATime_of_noOrphans rfl, trivial⟩⟩

end Bitrst.Sample
