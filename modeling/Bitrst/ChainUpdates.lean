import Bitrst.ChainCoherence
import Bitrst.Support.UndoStack

/-!
# The updates a call is made of

Whatever `connect_block` does is a sequence of a few updates: a block becomes
the tip, the tip is popped, a side block is indexed, an event is pushed, and a
failed reorganisation puts the active list back.  A property that every update
keeps is kept by every call and every run.
-/

namespace Bitrst

open Support

variable [Crypto] [Features]

/-- The moves of the active chain that an event announces. -/
def ChainEvent.move? : ChainEvent → Option (Move Hash256)
  | .blockConnected height hash _ => some (.push height hash)
  | .blockDisconnected height hash => some (.pop height hash)
  | .chainReorg _ _ _ => none
  | .orphanAdded _ _ => none
  | .orphanEvicted _ _ => none

namespace Chain

variable {genesis : Block} {chain chain' : Chain}

/-- The blocks, the index and the journals are the same. -/
structure SameRecords (chain chain' : Chain) : Prop where
  blocks : chain'.blocks = chain.blocks
  known : chain'.known = chain.known
  events : chain'.eventJournal = chain.eventJournal
  disconnected : chain'.disconnectedJournal = chain.disconnectedJournal

/-- The chain with the wallet mark of its event journal moved. -/
def withMark (chain : Chain) (mark : ℕ) : Chain :=
  { chain with eventJournal := { chain.eventJournal with walletHighWater := mark } }

omit [Crypto] [Features] in
theorem takeEvents_withMark (chain : Chain) :
    ∃ mark, (takeEvents chain).2 = chain.withMark mark := by
  simp only [takeEvents, ChainEventJournal.takeEvents]
  split
  · exact ⟨_, rfl⟩
  · split <;> exact ⟨_, rfl⟩

/-- A property that every update keeps. -/
structure KeptByUpdates (genesis : Block) (P : Chain → Prop) : Prop where
  push : ∀ chain block work, Indexed genesis chain → Indexed.Pushable chain block →
    (validateBlockLimits block = .ok () ∨ chain.known.lookup block.hash ≠ none) →
      P chain → P (chain.pushTip block chain.blocks.length work)
  pop : ∀ chain keep tip, Indexed genesis chain → chain.blocks = keep ++ [tip] → keep ≠ [] →
    P chain → P (chain.popTip tip)
  store : ∀ chain block parent work, Admitted chain block parent work →
    P chain → P (chain.storeSide block parent work)
  restore : ∀ chain failed, chain.eventJournal.pushed <+: failed.eventJournal.pushed →
    P chain → P failed → P (chain.restoreActive failed)
  event : ∀ chain event, event.move? = none → P chain → P (chain.pushEvent event)
  same : ∀ chain chain', SameRecords chain chain' → P chain → P chain'

namespace KeptByUpdates

variable {P : Chain → Prop}

theorem congr (hP : KeptByUpdates genesis P) (hc : P chain) (hsame : SameRecords chain chain') :
    P chain' := hP.same chain chain' hsame hc

theorem rewind (hP : KeptByUpdates genesis P) (h : Indexed genesis chain) {keep post : List Block}
    (hblocks : chain.blocks = keep ++ post) (hkeep : keep ≠ []) (hc : P chain) :
    P (rewind post chain) := by
  induction post generalizing keep with
  | nil => exact hc
  | cons block post ih =>
      have hsplit : chain.blocks = (keep ++ [block]) ++ post := by simpa using hblocks
      exact hP.pop _ keep block (h.rewind hsplit (by simp)) (rewind_blocks hsplit) hkeep
        (ih hsplit (by simp))

/-- The events pushed so far are a prefix of those pushed later. -/
theorem pushed_extends (chain₀ : Chain) :
    KeptByUpdates genesis fun chain ↦
      chain₀.eventJournal.pushed <+: chain.eventJournal.pushed where
  push _ _ _ _ _ _ hc := hc.trans (List.prefix_append _ _)
  pop _ _ _ _ _ _ hc := hc.trans (List.prefix_append _ _)
  store _ _ _ _ _ hc := hc
  restore _ _ _ _ hfailed := hfailed
  event _ _ _ hc := hc.trans (List.prefix_append _ _)
  same _ _ hsame hc := by rwa [hsame.events]

theorem connects (hP : KeptByUpdates genesis P) (h : Indexed genesis chain) {block : Block}
    {parent : BlockMeta} {work : ChainWork} (hadm : Admitted chain block parent work)
    {path keep post front back : List Block} {fork : Block} {done : Chain}
    (hf : ForkPoint chain block path keep fork post) (hparts : path = front ++ back)
    (hconnects : ConnectsPath front (Chain.rewind post chain) done) (hc : P chain) : P done := by
  have hready := hf.pathReady h hadm.unknown
  rw [hparts] at hready
  have hstep : ∀ c b rest work, b ∈ front → Indexed genesis c →
      PathReady genesis c (b :: rest) → ForkBlockValid c b work →
        (P c ∧ ∀ hash, chain.known.lookup hash ≠ none → c.known.lookup hash ≠ none) →
          P (c.pushForkBlock b work) ∧ ∀ hash, chain.known.lookup hash ≠ none →
            (c.pushForkBlock b work).known.lookup hash ≠ none := by
    rintro c b rest work hb hindexed hpath - ⟨hc, hknown⟩
    rw [pushForkBlock, PathReady.height_add_one hindexed]
    refine ⟨hP.push c b _ hindexed (hpath.pushable hindexed) ?_ hc, ?_⟩
    · rcases hf.mem_path_cases (hparts ▸ List.mem_append_left _ hb) with rfl | ⟨-, entry, hentry, -⟩
      · exact Or.inl hadm.limits
      · exact Or.inr (hknown _ (by simp [hentry]))
    · intro hash hhash
      rw [pushTip_known]
      split
      · simp
      · exact hknown hash hhash
  exact (PathReady.induction_on_path _ hstep hconnects (hf.rewind_indexed h) hready.front
    ⟨hP.rewind h hf.split' (by simp) hc, by simp⟩).2.1

theorem placement (hP : KeptByUpdates genesis P) (h : Indexed genesis chain) {block : Block}
    {parent : BlockMeta} {work : ChainWork} (hadm : Admitted chain block parent work)
    {outcome : ChainResult ConnectResult × Chain}
    (hplace : Placement chain block parent work outcome) (hc : P chain) : P outcome.2 := by
  cases hplace with
  | extended tip =>
      have hpush : Indexed.Pushable chain block := ⟨tip, by simp [hadm.unknown]⟩
      have hpushed := hP.push chain block (parent.work.add work) h hpush (Or.inl hadm.limits) hc
      rw [← hadm.height_eq h tip] at hpushed
      exact hP.congr hpushed ⟨rfl, rfl, rfl, rfl⟩
  | side _ _ => exact hP.store chain block parent work hadm hc
  | reorganized _ _ forks connects =>
      have hdone := hP.connects h hadm forks (List.append_nil _).symm connects hc
      exact hP.event _ _ rfl (hP.congr hdone ⟨rfl, rfl, rfl, rfl⟩)
  | failed _ _ _ _ forks _ parts connects =>
      have hreached := hP.connects h hadm forks parts connects hc
      have hpre := (pushed_extends chain).connects h hadm forks parts connects
        (List.prefix_refl _)
      exact hP.restore chain _ hpre hc
        (hP.congr hreached ⟨rfl, rfl, rfl, rfl⟩)

theorem insertOrphan (hP : KeptByUpdates genesis P) (order : OrphanOrder) (block : Block)
    (hc : P chain) : P (chain.insertOrphan order block) := by
  have hinsert : ∀ base : Chain, P base → ∀ orphans seq hash size,
      P { base with
        orphans := orphans
        orphanReceiveSeq := seq
        eventJournal := base.eventJournal.push (.orphanAdded hash size) } := by
    intro base hbase orphans seq hash size
    exact hP.event { base with orphans := orphans, orphanReceiveSeq := seq } _ rfl
      (hP.congr hbase ⟨rfl, rfl, rfl, rfl⟩)
  unfold Chain.insertOrphan evictOldestOrphan
  split
  · split
    · exact hinsert chain hc _ _ _ _
    · rename_i evicted _
      refine hinsert _ (hP.event { chain with orphans := chain.orphans.erase evicted.1 } _ rfl ?_)
        _ _ _ _
      exact hP.congr hc ⟨rfl, rfl, rfl, rfl⟩
  · exact hinsert chain hc _ _ _ _

theorem connectAlone (hP : KeptByUpdates genesis P) (h : Indexed genesis chain)
    (order : OrphanOrder) (block : Block) (hc : P chain) :
    P (connectAlone order block chain).2 := by
  rw [connectAlone_eq]
  cases hadm : chain.admission block with
  | error e => exact hc
  | ok found =>
      cases found with
      | none => exact hP.insertOrphan order block hc
      | some pair =>
          have hadmitted := admission_some_iff.mp hadm
          exact hP.placement h hadmitted (place_placement h hadmitted) hc

theorem connectBlock (hP : KeptByUpdates genesis P) (h : Coherent genesis chain)
    (order : OrphanOrder) (block : Block) (hc : P chain) :
    Coherent genesis (connectBlock order block chain).2 ∧
      P (Chain.connectBlock order block chain).2 := by
  refine connectBlock_induction order block chain (fun c ↦ Coherent genesis c ∧ P c) ?_ ?_ ⟨h, hc⟩
  · rintro c _ ⟨hc, hP'⟩ hfewer
    refine ⟨hfewer.coherent hc, ?_⟩
    obtain ⟨orphans, rfl, -⟩ := hfewer
    exact hP.congr hP' ⟨rfl, rfl, rfl, rfl⟩
  · exact fun c b hc _ ↦
      ⟨connectAlone_coherent hc.1 order b, hP.connectAlone hc.1.indexed order b hc.2⟩

theorem setNetworkTime (hP : KeptByUpdates genesis P) (networkTime : UInt32) (hc : P chain) :
    P (Chain.setNetworkTime networkTime chain).2 := by
  unfold Chain.setNetworkTime
  split
  · exact hc
  · exact hP.congr hc ⟨rfl, rfl, rfl, rfl⟩

theorem reachable (hP : KeptByUpdates genesis P)
    (hstart : ∀ networkTime capacity chain,
      withJournalCapacities genesis networkTime capacity = .ok chain → P chain)
    (hmark : ∀ chain mark, P chain → P (chain.withMark mark))
    (h : Reachable genesis chain) : P chain := by
  induction h with
  | start created => exact hstart _ _ _ created
  | connect order block run _ _ ih => exact (hP.connectBlock run.coherent order block ih).2
  | setTime networkTime _ ih => exact hP.setNetworkTime networkTime ih
  | @takeEvents chain _ ih =>
      obtain ⟨mark, heq⟩ := takeEvents_withMark chain
      exact heq ▸ hmark chain mark ih

end KeptByUpdates

/-! ## Runs that go on from a state -/

/-- The states that calls lead to from a given one. -/
inductive Continues (chain₀ : Chain) : Chain → Prop
  | refl : Continues chain₀ chain₀
  | connect {chain : Chain} (order : OrphanOrder) (block : Block) (run : Continues chain₀ chain)
      (returned : Returned (connectBlock order block chain).1) :
      Continues chain₀ (connectBlock order block chain).2
  | setTime {chain : Chain} (networkTime : UInt32) (run : Continues chain₀ chain) :
      Continues chain₀ (setNetworkTime networkTime chain).2
  | takeEvents {chain : Chain} (run : Continues chain₀ chain) :
      Continues chain₀ (Chain.takeEvents chain).2

theorem Continues.reachable (hrun : Continues chain chain') (h : Reachable genesis chain) :
    Reachable genesis chain' := by
  induction hrun with
  | refl => exact h
  | connect order block _ returned ih => exact .connect order block ih returned (by simp)
  | setTime networkTime _ ih => exact .setTime networkTime ih
  | takeEvents _ ih => exact .takeEvents ih

theorem KeptByUpdates.continues {P : Chain → Prop} (hP : KeptByUpdates genesis P)
    (hmark : ∀ chain mark, P chain → P (chain.withMark mark))
    (hrun : Continues chain chain') (h : Reachable genesis chain) (hc : P chain) : P chain' := by
  induction hrun with
  | refl => exact hc
  | connect order block run _ ih =>
      exact (hP.connectBlock (run.reachable h).coherent order block ih).2
  | setTime networkTime _ ih => exact hP.setNetworkTime networkTime ih
  | @takeEvents chain _ ih =>
      obtain ⟨mark, heq⟩ := takeEvents_withMark chain
      exact heq ▸ hmark chain mark ih

/-! ## The index only grows -/

/-- Every indexed block stays indexed at its height. -/
def KeepsIndex (chain chain' : Chain) : Prop :=
  ∀ hash entry, chain.known.lookup hash = some entry →
    ∃ entry', chain'.known.lookup hash = some entry' ∧ entry'.block = entry.block ∧
      entry'.height = entry.height

omit [Crypto] [Features] in
theorem KeepsIndex.refl (chain : Chain) : KeepsIndex chain chain :=
  fun _ entry hentry ↦ ⟨entry, hentry, rfl, rfl⟩

omit [Crypto] [Features] in
theorem KeepsIndex.trans {chain'' : Chain} (h : KeepsIndex chain chain')
    (h' : KeepsIndex chain' chain'') : KeepsIndex chain chain'' := by
  intro hash entry hentry
  obtain ⟨entry', hentry', hblock, hheight⟩ := h hash entry hentry
  obtain ⟨entry'', hentry'', hblock', hheight'⟩ := h' hash entry' hentry'
  exact ⟨entry'', hentry'', hblock'.trans hblock, hheight'.trans hheight⟩

omit [Features] in
theorem KeepsIndex.pushTip {block : Block} (hpush : Indexed.Pushable chain block)
    (work : ChainWork) : KeepsIndex chain (chain.pushTip block chain.blocks.length work) := by
  intro hash entry hentry
  rw [pushTip_known]
  split
  · rename_i heq
    obtain ⟨hblock, hheight⟩ := hpush.indexed entry (heq ▸ hentry)
    exact ⟨_, rfl, hblock.symm, hheight.symm⟩
  · exact ⟨entry, hentry, rfl, rfl⟩

theorem KeepsIndex.storeSide {block : Block} {parent : BlockMeta} {work : ChainWork}
    (hadm : Admitted chain block parent work) :
    KeepsIndex chain (chain.storeSide block parent work) := by
  intro hash entry hentry
  rw [storeSide_known]
  split
  · rename_i heq
    rw [heq, hadm.unknown] at hentry
    cases hentry
  · exact ⟨entry, hentry, rfl, rfl⟩

theorem keepsIndex_kept (chain₀ : Chain) : KeptByUpdates genesis (KeepsIndex chain₀) where
  push _ _ work _ hpush _ hc := hc.trans (.pushTip hpush work)
  pop _ _ _ _ _ _ hc := hc
  store _ _ _ _ hadm hc := hc.trans (.storeSide hadm)
  restore _ _ _ _ hfailed := hfailed
  event _ _ _ hc := hc
  same _ _ hsame hc := fun hash entry hentry ↦ by
    rw [hsame.known]
    exact hc hash entry hentry

theorem Continues.keepsIndex (hrun : Continues chain chain') (h : Reachable genesis chain) :
    KeepsIndex chain chain' :=
  (keepsIndex_kept chain).continues (fun _ _ hc ↦ hc) hrun h (.refl chain)

/-- Every indexed block is within the limits. -/
def WithinLimits (chain : Chain) : Prop :=
  ∀ hash entry, chain.known.lookup hash = some entry → validateBlockLimits entry.block = .ok ()

theorem withinLimits_kept : KeptByUpdates genesis WithinLimits where
  push chain block work _ hpush hlimits hc := by
    intro hash entry hentry
    rw [pushTip_known] at hentry
    split at hentry
    · rw [← Option.some.inj hentry]
      rcases hlimits with hlimits | hknown
      · exact hlimits
      · obtain ⟨stored, hstored⟩ := Option.ne_none_iff_exists'.mp hknown
        have hstoredLimits := hc _ _ hstored
        rwa [(hpush.indexed stored hstored).1] at hstoredLimits
    · exact hc hash entry hentry
  pop _ _ _ _ _ _ hc := hc
  store chain block parent work hadm hc := by
    intro hash entry hentry
    rw [storeSide_known] at hentry
    split at hentry
    · rw [← Option.some.inj hentry]
      exact hadm.limits
    · exact hc hash entry hentry
  restore _ _ _ _ hfailed := hfailed
  event _ _ _ hc := hc
  same _ _ hsame hc := by
    unfold WithinLimits
    rwa [hsame.known]

theorem Reachable.withinLimits (h : Reachable genesis chain) : WithinLimits chain := by
  refine withinLimits_kept.reachable ?_ (fun _ _ hc ↦ hc) h
  intro networkTime capacity chain created hash entry hentry
  have hlimits : validateBlockLimits genesis = .ok () := by
    unfold withJournalCapacities at created
    split at created
    · cases created
    · simp only at created
      split at created
      · cases created
      · rename_i hlimits
        exact hlimits
  obtain ⟨work, -, rfl⟩ := withJournalCapacities_spec created
  rw [pushTip_known] at hentry
  split at hentry
  · rw [← Option.some.inj hentry]
    exact hlimits
  · simp at hentry

end Chain

end Bitrst
