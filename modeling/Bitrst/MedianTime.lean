import Bitrst.Branch
import Bitrst.ChainUpdates
import Bitrst.Support.SlidingMedian

/-!
# The median of the past times

`median_past_time_before` takes the median of a window of eleven times that slides up a
branch.  A block is accepted only above the median of its parent's window, and its
ancestors never change, so along every branch the median does not go back.  When the
parent of the genesis block is not known the walk ends at the genesis block.
-/

namespace Bitrst

open Support

variable [Crypto] [Features]

namespace Chain

variable {genesis : Block} {chain chain' : Chain}

/-! ## The window -/

omit [Crypto] [Features] in
theorem pastTimes_unknown {hash : Hash256} (hnone : chain.known.lookup hash = none) (n : ℕ) :
    chain.pastTimes n hash = [] := by
  cases n with
  | zero => rfl
  | succ n => rw [pastTimes, hnone]

omit [Crypto] [Features] in
theorem medianPastTimeBefore_unknown {hash : Hash256} (hnone : chain.known.lookup hash = none) :
    chain.medianPastTimeBefore hash = 0 := by
  rw [medianPastTimeBefore, pastTimes_unknown hnone]
  rfl

omit [Features] in
/-- The times of a window are the last times of the branch, the youngest first. -/
theorem pastTimes_eq_take (h : Indexed genesis chain)
    (hroot : chain.known.lookup genesis.header.prevBlockhash = none) (n : ℕ) {hash : Hash256}
    {entry : BlockMeta} (hentry : chain.known.lookup hash = some entry) :
    chain.pastTimes n hash =
      ((chain.branch hash).reverse.map fun b ↦ b.header.time).take n := by
  induction n generalizing hash entry with
  | zero => rfl
  | succ n ih =>
      rw [pastTimes, hentry]
      simp only
      by_cases hgen : hash = genesis.hash
      · obtain ⟨found, hfound, hblock, -⟩ := h.genesis_known
        rw [hgen, hfound] at hentry
        obtain rfl := Option.some.inj hentry
        rw [hgen, h.branch_genesis, hblock, pastTimes_unknown hroot]
        simp
      · rcases h.known_parent hash entry hentry with heq | ⟨parent, hparent, -⟩
        · exact (hgen heq).elim
        · rw [h.branch_succ hentry hgen, ih hparent, List.reverse_append]
          rfl

omit [Crypto] [Features] in
theorem medianPastTimeBefore_toNat (hash : Hash256) :
    (chain.medianPastTimeBefore hash).toNat =
      upperMedian ((chain.pastTimes 11 hash).map UInt32.toNat) := by
  have hsort := List.map_insertionSort (· ≤ ·) (· ≤ ·) UInt32.toNat (chain.pastTimes 11 hash)
    fun _ _ _ _ ↦ UInt32.le_iff_toNat_le
  rw [upperMedian, medianPastTimeBefore, List.length_map, ← hsort]
  simp only [List.getD_eq_getElem?_getD, List.getElem?_map]
  cases ((chain.pastTimes 11 hash).insertionSort
      (· ≤ ·))[(chain.pastTimes 11 hash).length / 2]? with
  | none => rfl
  | some time => rfl

/-! ## The window slides up a branch -/

/-- Every known block but the genesis block is later than the median before its parent. -/
def LaterThanMedian (genesis : Block) (chain : Chain) : Prop :=
  ∀ hash entry, chain.known.lookup hash = some entry → hash ≠ genesis.hash →
    chain.medianPastTimeBefore entry.block.header.prevBlockhash < entry.block.header.time

omit [Features] in
/-- The median does not go back from a parent to its child. -/
theorem LaterThanMedian.median_le (hlater : LaterThanMedian genesis chain)
    (h : Indexed genesis chain) (hroot : chain.known.lookup genesis.header.prevBlockhash = none)
    {hash : Hash256} {entry : BlockMeta} (hentry : chain.known.lookup hash = some entry)
    (hne : hash ≠ genesis.hash) :
    chain.medianPastTimeBefore entry.block.header.prevBlockhash ≤
      chain.medianPastTimeBefore hash := by
  rcases h.known_parent hash entry hentry with hgen | ⟨parent, hparent, -⟩
  · exact (hne hgen).elim
  · have htime := UInt32.lt_iff_toNat_lt.mp (hlater hash entry hentry hne)
    rw [UInt32.le_iff_toNat_le, medianPastTimeBefore_toNat hash]
    rw [medianPastTimeBefore_toNat] at htime ⊢
    rw [pastTimes_eq_take h hroot 11 hparent, List.map_take] at htime ⊢
    rw [pastTimes_eq_take h hroot 11 hentry, h.branch_succ hentry hne, List.reverse_append,
      List.map_take]
    exact upperMedian_take_le (by decide) htime.le

omit [Features] in
/-- Up to a known block the median before the parents of its ancestors stays at most that
before its own parent. -/
theorem LaterThanMedian.median_le_of_mem_branch (hlater : LaterThanMedian genesis chain)
    (h : Indexed genesis chain) (hroot : chain.known.lookup genesis.header.prevBlockhash = none)
    {hash : Hash256} {entry : BlockMeta} (hentry : chain.known.lookup hash = some entry)
    {ancestor : Block} (hancestor : ancestor ∈ chain.branch hash) :
    chain.medianPastTimeBefore ancestor.header.prevBlockhash ≤
      chain.medianPastTimeBefore entry.block.header.prevBlockhash := by
  have hbottom : ∀ time : UInt32,
      chain.medianPastTimeBefore genesis.header.prevBlockhash ≤ time := by
    intro time
    rw [medianPastTimeBefore_unknown hroot]
    exact UInt32.le_iff_toNat_le.mpr (Nat.zero_le _)
  induction hn : entry.height generalizing hash entry with
  | zero =>
      have hgen : hash = genesis.hash := by
        by_contra hne
        rcases h.known_parent hash entry hentry with heq | ⟨parent, -, hheight⟩
        · exact hne heq
        · omega
      rw [hgen, h.branch_genesis, List.mem_singleton] at hancestor
      rw [hancestor]
      exact hbottom _
  | succ n ih =>
      by_cases hgen : hash = genesis.hash
      · rw [hgen, h.branch_genesis, List.mem_singleton] at hancestor
        rw [hancestor]
        exact hbottom _
      · rcases h.known_parent hash entry hentry with heq | ⟨parent, hparent, hheight⟩
        · exact (hgen heq).elim
        · rw [h.branch_succ hentry hgen, List.mem_append, List.mem_singleton] at hancestor
          rcases hancestor with hbelow | rfl
          · have hparents := ih hparent hbelow (by omega)
            by_cases hfirst : entry.block.header.prevBlockhash = genesis.hash
            · obtain ⟨found, hfound, hgenesis, -⟩ := h.genesis_known
              rw [hfirst, hfound] at hparent
              obtain rfl := Option.some.inj hparent
              rw [hgenesis] at hparents
              exact UInt32.le_trans hparents (hbottom _)
            · exact UInt32.le_trans hparents (hlater.median_le h hroot hparent hfirst)
          · exact UInt32.le_refl _

/-! ## Runs -/

omit [Crypto] [Features] in
theorem KeepsIndex.unknown (hkeeps : KeepsIndex chain chain') {hash : Hash256}
    (hnone : chain'.known.lookup hash = none) : chain.known.lookup hash = none := by
  by_contra hknown
  obtain ⟨old, hold⟩ := Option.ne_none_iff_exists'.mp hknown
  obtain ⟨new, hnew, -⟩ := hkeeps hash old hold
  rw [hnone] at hnew
  cases hnew

omit [Features] in
/-- What the window saw stays when the index grows. -/
theorem pastTimes_keepsIndex (h : Indexed genesis chain) (hkeeps : KeepsIndex chain chain')
    (hroot : chain'.known.lookup genesis.header.prevBlockhash = none) (n : ℕ) {hash : Hash256}
    {entry : BlockMeta} (hentry : chain.known.lookup hash = some entry) :
    chain'.pastTimes n hash = chain.pastTimes n hash := by
  induction n generalizing hash entry with
  | zero => rfl
  | succ n ih =>
      obtain ⟨entry', hentry', hblock, -⟩ := hkeeps hash entry hentry
      rw [pastTimes, pastTimes, hentry, hentry']
      simp only [hblock]
      rcases h.known_parent hash entry hentry with hgen | ⟨parent, hparent, -⟩
      · obtain ⟨found, hfound, hgenesis, -⟩ := h.genesis_known
        rw [hgen, hfound] at hentry
        obtain rfl := Option.some.inj hentry
        rw [hgenesis, pastTimes_unknown hroot, pastTimes_unknown (hkeeps.unknown hroot)]
      · rw [ih hparent]

/-- An admitted block is later than the median before its parent. -/
theorem Admitted.laterThanMedian {block : Block} {parent : BlockMeta} {work : ChainWork}
    (hadm : Admitted chain block parent work) :
    chain.medianPastTimeBefore block.header.prevBlockhash < block.header.time := by
  have hheader := (validateBlockForParent_ok_iff.mp hadm.valid).1
  have hwindow := hheader.time _ _ rfl rfl
  simp only [validBlockTime, Bool.and_eq_true, decide_eq_true_eq] at hwindow
  exact hwindow.1

/-- Every activation keeps the known blocks later than the medians before their parents. -/
theorem connectAlone_laterThanMedian (h : Indexed genesis chain) (order : OrphanOrder)
    (block : Block) (hlater : chain.known.lookup genesis.header.prevBlockhash = none →
      LaterThanMedian genesis chain)
    (hroot : (connectAlone order block chain).2.known.lookup genesis.header.prevBlockhash = none) :
    LaterThanMedian genesis (connectAlone order block chain).2 := by
  have hkept : KeptByUpdates genesis (KeepsIndex chain) := keepsIndex_kept chain
  have hkeeps : KeepsIndex chain (connectAlone order block chain).2 :=
    hkept.connectAlone h order block (.refl chain)
  have hmedian : ∀ {hash : Hash256} {parent : BlockMeta},
      chain.known.lookup hash = some parent →
        (connectAlone order block chain).2.medianPastTimeBefore hash =
          chain.medianPastTimeBefore hash := by
    intro hash parent hparent
    unfold medianPastTimeBefore
    rw [pastTimes_keepsIndex h hkeeps hroot 11 hparent]
  have hold : ∀ hash old, chain.known.lookup hash = some old → hash ≠ genesis.hash →
      (connectAlone order block chain).2.medianPastTimeBefore old.block.header.prevBlockhash <
        old.block.header.time := by
    intro hash old hold hne
    rcases h.known_parent hash old hold with hgen | ⟨parent, hparent, -⟩
    · exact (hne hgen).elim
    · rw [hmedian hparent]
      exact hlater (hkeeps.unknown hroot) hash old hold hne
  intro hash entry hentry hne
  cases hadm : chain.admission block with
  | error stop =>
      rw [connectAlone_eq, hadm] at hentry
      exact hold hash entry hentry hne
  | ok found =>
      cases found with
      | none =>
          obtain ⟨orphans, seq, journal, heq, -⟩ := insertOrphan_spec order chain block
          rw [connectAlone_eq, hadm] at hentry
          simp only [heq] at hentry
          exact hold hash entry hentry hne
      | some pair =>
          have hadmitted := admission_some_iff.mp hadm
          have hentry' := hentry
          rw [connectAlone_eq_place order hadmitted] at hentry'
          rcases (place_placement h hadmitted).known_cases hentry' with
            hblock | ⟨old, hknown, hblock⟩
          · rw [hblock, hmedian hadmitted.parent_known]
            exact hadmitted.laterThanMedian
          · rw [← hblock]
            exact hold hash old hknown hne

theorem Reachable.laterThanMedian (h : Reachable genesis chain)
    (hroot : chain.known.lookup genesis.header.prevBlockhash = none) :
    LaterThanMedian genesis chain := by
  have hinvariant : Coherent genesis chain ∧
      (chain.known.lookup genesis.header.prevBlockhash = none → LaterThanMedian genesis chain) :=
    h.invariant (fun c ↦ Coherent genesis c ∧
        (c.known.lookup genesis.header.prevBlockhash = none → LaterThanMedian genesis c))
      (by
        intro networkTime capacity c created
        refine ⟨withJournalCapacities_coherent created, fun _ hash entry hentry hne ↦ ?_⟩
        obtain ⟨work, -, rfl⟩ := withJournalCapacities_spec created
        rw [pushTip_known, if_neg hne] at hentry
        cases hentry)
      (by
        rintro c _ ⟨hc, hlater⟩ hfewer
        refine ⟨hfewer.coherent hc, ?_⟩
        obtain ⟨orphans, rfl, -⟩ := hfewer
        exact hlater)
      (fun order c block hc _ ↦ ⟨connectAlone_coherent hc.1 order block,
        connectAlone_laterThanMedian hc.1.indexed order block hc.2⟩)
      (fun _ _ hc ↦ ⟨hc.1.congr rfl rfl rfl rfl, hc.2⟩)
      (fun _ _ hc ↦ ⟨hc.1.congr rfl rfl rfl rfl, hc.2⟩)
  exact hinvariant.2 hroot

/-- Along every branch the median time past does not go back, and every known block is later
than the medians before the parents of its ancestors. -/
theorem medianPastTime_monotone (h : Reachable genesis chain)
    (hroot : chain.known.lookup genesis.header.prevBlockhash = none) :
    ∀ hash entry, chain.known.lookup hash = some entry → hash ≠ genesis.hash →
      chain.medianPastTimeBefore entry.block.header.prevBlockhash ≤
          chain.medianPastTimeBefore hash ∧
        ∀ ancestor ∈ chain.branch hash,
          chain.medianPastTimeBefore ancestor.header.prevBlockhash < entry.block.header.time := by
  intro hash entry hentry hne
  have hindexed := (ReachableWith.coherent h).indexed
  have hlater := Reachable.laterThanMedian h hroot
  refine ⟨hlater.median_le hindexed hroot hentry hne, fun ancestor hancestor ↦ ?_⟩
  have hbelow := hlater.median_le_of_mem_branch hindexed hroot hentry hancestor
  exact UInt32.lt_of_le_of_lt hbelow (hlater hash entry hentry hne)

end Chain

end Bitrst

namespace Bitrst.Sample

theorem side_median_le : (forked (grown first)).medianPastTimeBefore genesisHash ≤
      (forked (grown first)).medianPastTimeBefore side.hash ∧
    ∀ ancestor ∈ (forked (grown first)).branch side.hash,
      (forked (grown first)).medianPastTimeBefore ancestor.header.prevBlockhash <
        side.header.time :=
  Chain.medianPastTime_monotone forked_reachable (by decide +kernel) side.hash sideMeta
    (by decide +kernel) (by decide +kernel)

end Bitrst.Sample
