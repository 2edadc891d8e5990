import Bitrst.ErrorAtomicity

/-!
# Orphans that could be connected

Once a block has become the tip, `process_orphans` connects orphans until none is left
whose parent is known.  A block that is only stored on a side branch takes none
along, so an orphan is left behind exactly when it waits for such a block.
-/

namespace Bitrst

open Support

variable [Crypto] [Features]

namespace Chain

variable {genesis : Block} {chain : Chain} {block : Block}

/-- No orphan has a known parent. -/
def NoneReady (chain : Chain) : Prop :=
  ∀ hash entry, chain.orphans.lookup hash = some entry →
    chain.known.lookup entry.block.header.prevBlockhash = none

/-- Some orphan waits for the block with the hash. -/
def Awaited (chain : Chain) (hash : Hash256) : Prop :=
  ∃ key entry, chain.orphans.lookup key = some entry ∧ entry.block.header.prevBlockhash = hash

/-- The block extends the tip, or its branch has more work than the active one. -/
def Leads (chain : Chain) (block : Block) : Prop :=
  ∃ parent work, chain.known.lookup block.header.prevBlockhash = some parent ∧
    blockWork block.header.bits = .ok work ∧
      (block.header.prevBlockhash = chain.tipHash ∨
        ¬ (parent.work.add work).le chain.totalWork)

/-- The block is in the index or in the orphan pool: `has_block_hash`. -/
def Received (chain : Chain) (block : Block) : Prop :=
  chain.known.lookup block.hash ≠ none ∨
    ∃ entry, chain.orphans.lookup block.hash = some entry ∧ entry.block = block

omit [Features] in
/-- Without such orphans a branch that was received in full is indexed in full. -/
theorem NoneReady.known_of_received (h : NoneReady chain) {below : Hash256} {branch : List Block}
    (hbelow : chain.known.lookup below ≠ none) (hlinked : LinkedAbove below branch)
    (hreceived : ∀ b ∈ branch, Received chain b) :
    ∀ b ∈ branch, chain.known.lookup b.hash ≠ none := by
  induction branch generalizing below with
  | nil => simp
  | cons first rest ih =>
      have hfirst : chain.known.lookup first.hash ≠ none := by
        rcases hreceived first List.mem_cons_self with hknown | ⟨entry, hentry, hblock⟩
        · exact hknown
        · have hparent := h first.hash entry hentry
          rw [hblock, hlinked.1] at hparent
          exact (hbelow hparent).elim
      intro b hb
      rcases List.mem_cons.mp hb with rfl | hrest
      · exact hfirst
      · exact ih hfirst hlinked.2 (fun b hb ↦ hreceived b (List.mem_cons_of_mem _ hb)) b hrest

/-! ## Taking the ready orphans -/

omit [Crypto] [Features] in
theorem dequeueOrphan_lookup_self (state : OrphanMap × List Block) (hash : Hash256) :
    (dequeueOrphan state hash).1.lookup hash = none := by
  unfold dequeueOrphan
  split
  · exact AList.lookup_erase _ _
  · assumption

omit [Crypto] [Features] in
/-- The listed orphans are gone from the pool. -/
theorem foldl_dequeueOrphan_gone (ready : List Hash256) (state : OrphanMap × List Block)
    {hash : Hash256} (hmem : hash ∈ ready) :
    (ready.foldl dequeueOrphan state).1.lookup hash = none := by
  induction ready generalizing state with
  | nil => cases hmem
  | cons first rest ih =>
      rw [List.foldl_cons]
      rcases List.mem_cons.mp hmem with rfl | hrest
      · rw [Option.eq_none_iff_forall_ne_some]
        intro entry hentry
        have hearly := foldl_dequeueOrphan_fewer rest _ _ _ hentry
        rw [dequeueOrphan_lookup_self] at hearly
        cases hearly
      · exact ih _ hrest

omit [Crypto] [Features] in
theorem enqueueReadyOrphans_noneReady (order : OrphanOrder) (chain : Chain) (queue : List Block) :
    NoneReady (chain.enqueueReadyOrphans order queue).1 := by
  intro hash entry hentry
  by_contra hknown
  have hmem : (⟨hash, entry⟩ : Sigma fun _ : Hash256 ↦ OrphanEntry) ∈
      order.iter chain.orphans.entries := by
    rw [(order.perm _).mem_iff]
    exact AList.mem_lookup_iff.mp (foldl_dequeueOrphan_fewer _ _ _ _ hentry)
  have hready : hash ∈ ((order.iter chain.orphans.entries).filter fun entry ↦
      (chain.known.lookup entry.2.block.header.prevBlockhash).isSome).map Sigma.fst :=
    List.mem_map.mpr ⟨_, List.mem_filter.mpr ⟨hmem, Option.isSome_iff_ne_none.mpr hknown⟩, rfl⟩
  have hgone := foldl_dequeueOrphan_gone _ (chain.orphans, queue) hready
  exact absurd (hgone.symm.trans hentry) (by simp)

/-! ## One block -/

/-- The blocks that a failed reorganisation connected were indexed before. -/
theorem ForkPoint.connects_known {path keep post front back : List Block}
    {fork next : Block} {reached : Chain} (hf : ForkPoint chain block path keep fork post)
    (hparts : path = front ++ next :: back)
    (hconnects : ConnectsPath front (Chain.rewind post chain) reached) {hash : Hash256}
    (hnone : chain.known.lookup hash = none) : reached.known.lookup hash = none := by
  rw [hconnects.known_eq, rewind_known, hnone]
  rintro b hb rfl
  obtain ⟨stored, hstored, hknown⟩ := hf.path.last
  have hfront : front <+: stored := by
    have hlast : path.dropLast = stored := by rw [hstored, List.dropLast_concat]
    rw [← hlast, hparts, List.dropLast_append_of_ne_nil (List.cons_ne_nil _ _)]
    exact List.prefix_append _ _
  obtain ⟨-, entry, hentry, -⟩ := hknown b (hfront.subset hb)
  rw [hnone] at hentry
  cases hentry

/-- A block that is refused leaves the orphans as they were and indexes nothing. -/
theorem connectAlone_error_noneReady (h : Indexed genesis chain) (order : OrphanOrder)
    {e : Stop} {failed : Chain} (herror : connectAlone order block chain = (.error e, failed))
    (hnone : NoneReady chain) : NoneReady failed := by
  rw [connectAlone_eq] at herror
  cases hadm : chain.admission block with
  | error stop =>
      rw [hadm] at herror
      obtain ⟨-, rfl⟩ := Prod.mk.inj herror
      exact hnone
  | ok found =>
      rw [hadm] at herror
      cases found with
      | none => cases herror
      | some pair =>
          have hadmitted := admission_some_iff.mp hadm
          have hplace := place_placement h hadmitted
          simp only at herror
          rw [herror] at hplace
          cases hplace with
          | failed e utxo tip heavier forks fails parts connects =>
              intro hash entry hentry
              have hpool : chain.orphans.lookup hash = some entry := by
                have horphans := connects.orphans_eq.trans (rewind_orphans _ _)
                rw [← horphans]
                exact hentry
              exact forks.connects_known parts connects (hnone hash entry hpool)

omit [Features] in
/-- A block without a known parent is stored where nothing is ready. -/
theorem insertOrphan_noneReady (order : OrphanOrder)
    (hparent : chain.known.lookup block.header.prevBlockhash = none) (hnone : NoneReady chain) :
    NoneReady (chain.insertOrphan order block) := by
  obtain ⟨orphans, seq, journal, heq, hpool⟩ := insertOrphan_spec order chain block
  rw [heq]
  intro hash entry hentry
  rcases hpool hash entry hentry with ⟨-, hblock⟩ | hold
  · rw [hblock]
    exact hparent
  · exact hnone hash entry hold

omit [Features] in
/-- A block stored on a side branch leaves none ready exactly when none waits for it. -/
theorem storeSide_noneReady_iff (chain : Chain) (block : Block) (parent : BlockMeta)
    (work : ChainWork) : NoneReady (chain.storeSide block parent work) ↔
      NoneReady chain ∧ ¬ Awaited chain block.hash := by
  have hknown : ∀ hash, (chain.storeSide block parent work).known.lookup hash = none ↔
      hash ≠ block.hash ∧ chain.known.lookup hash = none := by
    intro hash
    by_cases heq : hash = block.hash
    · rw [heq]
      simp [storeSide, Finmap.lookup_insert]
    · simp [storeSide, Finmap.lookup_insert_of_ne _ heq, heq]
  constructor
  · intro h
    refine ⟨fun hash entry hentry ↦ ((hknown _).mp (h hash entry hentry)).2, ?_⟩
    rintro ⟨key, entry, hentry, hparent⟩
    exact ((hknown _).mp (h key entry hentry)).1 hparent
  · rintro ⟨hnone, hawaited⟩ hash entry hentry
    exact (hknown _).mpr ⟨fun hparent ↦ hawaited ⟨hash, entry, hentry, hparent⟩,
      hnone hash entry hentry⟩

omit [Features] in
/-- Nothing becomes ready where a block that none waits for extends the tip. -/
theorem extendTip_noneReady (parent : BlockMeta) (work : ChainWork) (hnone : NoneReady chain)
    (hawaited : ¬ Awaited chain block.hash) : NoneReady (chain.extendTip block parent work) := by
  intro hash entry hentry
  have hpool : chain.orphans.lookup hash = some entry := hentry
  refine (pushTip_known _ _ _ _ _).trans ((if_neg fun heq ↦ ?_).trans (hnone hash entry hpool))
  exact hawaited ⟨hash, entry, hpool, heq⟩

/-- How a block that got a value was dealt with: stored as an orphan or on a side branch, or
made the tip. -/
theorem connectAlone_ok_cases (h : Indexed genesis chain) (order : OrphanOrder)
    {result : ConnectResult} {placed : Chain}
    (hok : connectAlone order block chain = (.ok result, placed)) :
    (result = .orphaned block.hash ∧ placed = chain.insertOrphan order block ∧
        chain.known.lookup block.header.prevBlockhash = none) ∨
      (result.becameTip ∧ Leads chain block) ∨
      ∃ parent work, result = .sideChain (parent.height + 1) block.hash ∧ ¬ Leads chain block ∧
        placed = chain.storeSide block parent work := by
  rw [connectAlone_eq] at hok
  cases hadm : chain.admission block with
  | error stop =>
      rw [hadm] at hok
      cases hok
  | ok found =>
      rw [hadm] at hok
      cases found with
      | none =>
          obtain ⟨heq, rfl⟩ := Prod.mk.inj hok
          exact Or.inl ⟨(Except.ok.inj heq).symm, rfl, (admission_none_iff.mp hadm).2.2.2⟩
      | some pair =>
          have hadmitted := admission_some_iff.mp hadm
          have hplace := place_placement h hadmitted
          simp only at hok
          rw [hok] at hplace
          have hleads : (block.header.prevBlockhash = chain.tipHash ∨
              ¬ (pair.1.work.add pair.2).le chain.totalWork) → Leads chain block :=
            fun hcases ↦ ⟨pair.1, pair.2, hadmitted.parent_known, hadmitted.block_work, hcases⟩
          cases hplace with
          | extended tip => exact Or.inr (Or.inl ⟨rfl, hleads (Or.inl tip)⟩)
          | reorganized _ heavier _ _ => exact Or.inr (Or.inl ⟨rfl, hleads (Or.inr heavier)⟩)
          | side tip lighter =>
              refine Or.inr (Or.inr ⟨pair.1, pair.2, rfl, ?_, rfl⟩)
              rintro ⟨parent, work, hparent, hwork, hcases⟩
              rw [hadmitted.parent_known] at hparent
              rw [hadmitted.block_work] at hwork
              obtain rfl := Option.some.inj hparent
              obtain rfl := Except.ok.inj hwork
              exact hcases.elim tip fun hheavier ↦ hheavier lighter

/-! ## Promotion -/

/-- Every turn of the promotion loop starts and ends with none ready. -/
theorem processOrphansLoop_noneReady (order : OrphanOrder) (fuel : ℕ) (queue : List Block)
    (h : Coherent genesis chain) (hnone : NoneReady chain) :
    NoneReady (processOrphansLoop order fuel queue chain).2 := by
  induction fuel generalizing queue chain with
  | zero => exact hnone
  | succ fuel ih =>
      cases queue with
      | nil => exact hnone
      | cons block queue =>
          have hcoherent := connectAlone_coherent h order block
          unfold processOrphansLoop
          cases hconnect : connectAlone order block chain with
          | mk outcome placed =>
            rw [hconnect] at hcoherent
            cases outcome with
            | error e => exact connectAlone_error_noneReady h.indexed order hconnect hnone
            | ok result =>
                exact ih _ ((enqueueReadyOrphans_fewer order placed queue).coherent hcoherent)
                  (enqueueReadyOrphans_noneReady order placed queue)

theorem processOrphans_noneReady (order : OrphanOrder) (h : Coherent genesis chain) :
    NoneReady (processOrphans order chain).2 :=
  processOrphansLoop_noneReady order _ _ ((enqueueReadyOrphans_fewer order chain []).coherent h)
    (enqueueReadyOrphans_noneReady order chain [])

/-- A call that connects its block, or fails to promote what waits for it. -/
theorem connectBlock_cases (h : Coherent genesis chain) (order : OrphanOrder) (block : Block) :
    NoneReady (connectBlock order block chain).2 ∧ Leads chain block ∨
      connectBlock order block chain = connectAlone order block chain ∧
        ∀ result, (connectAlone order block chain).1 = .ok result → result.becameTip = false := by
  have hcoherent := connectAlone_coherent h order block
  rw [connectBlock_eq]
  cases hconnect : connectAlone order block chain with
  | mk outcome placed =>
    rw [hconnect] at hcoherent
    cases outcome with
    | error e => exact Or.inr ⟨rfl, fun _ hok ↦ by cases hok⟩
    | ok result =>
        simp only
        split
        · rename_i htip
          have hnone := processOrphans_noneReady order hcoherent
          have hleads : Leads chain block := by
            rcases connectAlone_ok_cases h.indexed order hconnect with
              ⟨rfl, -⟩ | ⟨-, hleads⟩ | ⟨_, _, rfl, -⟩
            · cases htip
            · exact hleads
            · cases htip
          cases hprocess : processOrphans order placed with
          | mk promoted done =>
            rw [hprocess] at hnone
            cases promoted <;> exact Or.inl ⟨hnone, hleads⟩
        · rename_i htip
          refine Or.inr ⟨rfl, fun found hok ↦ ?_⟩
          rw [← Except.ok.inj hok]
          exact Bool.eq_false_of_not_eq_true htip

/-- What a call that stores its block leaves ready. -/
theorem connectBlock_noneReady_iff (h : Coherent genesis chain) (order : OrphanOrder)
    {result : ConnectResult} {done : Chain}
    (hok : connectBlock order block chain = (.ok result, done))
    (hplaced : ∀ hash, result ≠ .orphaned hash) :
    NoneReady done ↔ Leads chain block ∨ (NoneReady chain ∧ ¬ Awaited chain block.hash) := by
  rcases connectBlock_cases h order block with ⟨hnone, hleads⟩ | ⟨halone, hstored⟩
  · rw [hok] at hnone
    exact iff_of_true hnone (Or.inl hleads)
  · rw [halone] at hok
    rcases connectAlone_ok_cases h.indexed order hok with
      ⟨rfl, -⟩ | ⟨htip, -⟩ | ⟨parent, work, -, hlight, rfl⟩
    · exact (hplaced _ rfl).elim
    · rw [hok] at hstored
      rw [hstored result rfl] at htip
      cases htip
    · rw [storeSide_noneReady_iff, or_iff_right hlight]

/-- A call for a block that leads, or that none waits for, leaves none ready. -/
theorem NoneReady.connectBlock (hnone : NoneReady chain) (h : Coherent genesis chain)
    (order : OrphanOrder) (hblock : Leads chain block ∨ ¬ Awaited chain block.hash) :
    NoneReady (Chain.connectBlock order block chain).2 := by
  rcases connectBlock_cases h order block with ⟨hdone, -⟩ | ⟨halone, hstored⟩
  · exact hdone
  · rw [halone]
    cases hconnect : connectAlone order block chain with
    | mk outcome placed =>
      cases outcome with
      | error e => exact connectAlone_error_noneReady h.indexed order hconnect hnone
      | ok result =>
          rcases connectAlone_ok_cases h.indexed order hconnect with
            ⟨-, rfl, hparent⟩ | ⟨htip, -⟩ | ⟨parent, work, -, hlight, rfl⟩
          · exact insertOrphan_noneReady order hparent hnone
          · rw [hconnect] at hstored
            rw [hstored result rfl] at htip
            cases htip
          · exact (storeSide_noneReady_iff _ _ _ _).mpr ⟨hnone, hblock.resolve_left hlight⟩

/-! ## Runs -/

/-- The states of the runs from `genesis` in which every delivered block meets `cond`. -/
inductive DeliveredWith (cond : Chain → Block → Prop) (genesis : Block) : Chain → Prop
  | start {networkTime : UInt32} {capacity : ℕ} {chain : Chain}
      (created : withJournalCapacities genesis networkTime capacity = .ok chain) :
      DeliveredWith cond genesis chain
  | connect {chain : Chain} (order : OrphanOrder) (block : Block)
      (run : DeliveredWith cond genesis chain)
      (returned : Returned (connectBlock order block chain).1)
      (meets : cond chain block) : DeliveredWith cond genesis (connectBlock order block chain).2
  | setTime {chain : Chain} (networkTime : UInt32) (run : DeliveredWith cond genesis chain) :
      DeliveredWith cond genesis (setNetworkTime networkTime chain).2
  | takeEvents {chain : Chain} (run : DeliveredWith cond genesis chain) :
      DeliveredWith cond genesis (Chain.takeEvents chain).2

theorem DeliveredWith.reachable {cond : Chain → Block → Prop}
    (h : DeliveredWith cond genesis chain) : Reachable genesis chain := by
  induction h with
  | start created => exact .start created
  | connect order block _ returned _ ih => exact .connect order block ih returned (by simp)
  | setTime networkTime _ ih => exact .setTime networkTime ih
  | takeEvents _ ih => exact .takeEvents ih

theorem DeliveredWith.noneReady
    (h : DeliveredWith (fun chain block ↦ Leads chain block ∨ ¬ Awaited chain block.hash)
      genesis chain) : NoneReady chain := by
  induction h with
  | start created =>
      obtain ⟨work, -, rfl⟩ := withJournalCapacities_spec created
      intro hash entry hentry
      cases hentry
  | connect order block run _ meets ih =>
      exact ih.connectBlock run.reachable.coherent order meets
  | setTime networkTime _ ih =>
      unfold setNetworkTime
      split
      · exact ih
      · exact ih
  | takeEvents _ ih => exact ih

/-- No orphan is left behind in the runs in which every delivered block leads or is waited
for by none, and then every branch that was received in full is indexed.  At every state of any
run, a call that connects or stores its block leaves none behind exactly when the block leads,
or none was left before and none waits for it. -/
theorem orphans_resolved_iff (genesis : Block) :
    (∀ chain, DeliveredWith (fun chain block ↦ Leads chain block ∨ ¬ Awaited chain block.hash)
        genesis chain → NoneReady chain ∧
      ∀ below branch, chain.known.lookup below ≠ none → LinkedAbove below branch →
        (∀ b ∈ branch, Received chain b) → ∀ b ∈ branch, chain.known.lookup b.hash ≠ none) ∧
    ∀ chain, Reachable genesis chain → ∀ order block result done,
      connectBlock order block chain = (.ok result, done) → (∀ hash, result ≠ .orphaned hash) →
        (NoneReady done ↔
          Leads chain block ∨ (NoneReady chain ∧ ¬ Awaited chain block.hash)) := by
  refine ⟨fun chain hrun ↦ ⟨hrun.noneReady, fun below branch ↦
    hrun.noneReady.known_of_received⟩, ?_⟩
  intro chain hrun order block result done hok hplaced
  exact connectBlock_noneReady_iff (ReachableWith.coherent hrun) order hok hplaced

end Chain

end Bitrst

namespace Bitrst.Sample

/-- The child of the rival waits beside `first`. -/
def stranding : Chain := (grown first).insertOrphan order sideNext

theorem stranding_reachable : Chain.Reachable genesis stranding := by
  have horphaned : (grown first).admission sideNext = .ok none := by decide +kernel
  have hcall : Chain.connectBlock order sideNext (grown first) =
      (.ok (.orphaned sideNext.hash), stranding) := Chain.connectBlock_orphaned order horphaned
  have hbase : Chain.Reachable genesis (grown first) := first_opens.reachable trivial
  have hnext := Chain.ReachableWith.connect order sideNext hbase
    (by rw [hcall]; simp [Returned]) (by simp)
  rwa [hcall] at hnext

theorem side_connects_beside :
    Chain.connectBlock order side stranding = (.ok (.sideChain 1 side.hash), forked stranding) := by
  have hfits : Chain.Fits stranding side genesisMeta := by decide +kernel
  have hadm := hfits.admitted blockWork_easyBits
  have hplace : stranding.place side genesisMeta easyWork =
      (.ok (.sideChain 1 side.hash), forked stranding) :=
    Chain.place_side (by decide +kernel) (by decide +kernel)
  rw [Chain.connectBlock_eq, Chain.connectAlone_eq_place order hadm, hplace]
  rfl

theorem sideNext_stranded :
    ((forked stranding).orphans.lookup sideNext.hash).isSome ∧
      ∀ entry, (forked stranding).orphans.lookup sideNext.hash = some entry →
        ((forked stranding).known.lookup entry.block.header.prevBlockhash).isSome := by
  have hentry : (forked stranding).orphans.lookup sideNext.hash = some ⟨sideNext, 1⟩ :=
    AList.lookup_insert _
  refine ⟨by rw [hentry]; rfl, fun entry hlookup ↦ ?_⟩
  obtain rfl := Option.some.inj (hentry.symm.trans hlookup)
  decide +kernel

/-- The rival is stored on a side branch, and its child keeps waiting though their branch has
more work than the active one. -/
theorem child_of_side_stranded : ¬ ∀ chain order block result done,
    Chain.Reachable genesis chain → Chain.connectBlock order block chain = (.ok result, done) →
      (∀ hash, result ≠ .orphaned hash) → Chain.NoneReady done := by
  intro h
  have hnone := h stranding order side _ _ stranding_reachable side_connects_beside (by simp)
  obtain ⟨hsome, hknown⟩ := sideNext_stranded
  obtain ⟨entry, hentry⟩ := Option.isSome_iff_exists.mp hsome
  have hready := hknown entry hentry
  rw [hnone _ _ hentry] at hready
  cases hready

end Bitrst.Sample
