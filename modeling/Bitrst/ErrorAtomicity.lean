import Bitrst.ChainCoherence

/-!
# Errors of `connect_block`

An error of the delivered block leaves the active chain as it was, also when a
reorganisation was half way.  An error of an orphan promoted afterwards is
returned too, and the delivered block stays connected.
-/

namespace Bitrst

open Support

variable [Crypto] [Features]

namespace Chain

variable {genesis : Block} {chain : Chain}

/-- The block fails the checks made before anything changes, or it makes the
chain reorganise and its fork path does not connect. -/
def Refused (chain : Chain) (block : Block) (e : ChainError) : Prop :=
  chain.admission block = .error (.error e) ∨
    ∃ parent work path keep fork post, Admitted chain block parent work ∧
      block.header.prevBlockhash ≠ chain.tipHash ∧
        ¬ (parent.work.add work).le chain.totalWork ∧
          ForkPoint chain block path keep fork post ∧
            (connectForkPath path (rewind post chain)).1 = .error (.error e)

/-- The active chain, its outputs and its work are the same. -/
structure SameActive (chain chain' : Chain) : Prop where
  blocks : chain'.blocks = chain.blocks
  activeHashes : chain'.activeHashes = chain.activeHashes
  utxo : chain'.utxo = chain.utxo
  totalWork : chain'.totalWork = chain.totalWork

omit [Crypto] [Features] in
theorem SameActive.refl (chain : Chain) : SameActive chain chain := ⟨rfl, rfl, rfl, rfl⟩

/-- A block is refused with the error that connecting it alone returns. -/
theorem connectAlone_error_iff (h : Indexed genesis chain) (order : OrphanOrder) {block : Block}
    {e : ChainError} :
    (connectAlone order block chain).1 = .error (.error e) ↔ Refused chain block e := by
  rw [connectAlone_eq]
  cases hadm : chain.admission block with
  | error stop =>
      constructor
      · intro herror
        exact Or.inl (hadm.trans (by rw [Except.error.inj herror]))
      · rintro (hstop | ⟨parent, work, -, -, -, -, hadmitted, -⟩)
        · rw [hadm] at hstop
          rw [Except.error.inj hstop]
        · rw [admission_some_iff.mpr hadmitted] at hadm
          cases hadm
  | ok found =>
      cases found with
      | none =>
          constructor
          · rintro ⟨⟩
          · rintro (hstop | ⟨parent, work, -, -, -, -, hadmitted, -⟩)
            · rw [hadm] at hstop
              cases hstop
            · rw [admission_some_iff.mpr hadmitted] at hadm
              cases hadm
      | some pair =>
          obtain ⟨parent, work⟩ := pair
          have hadmitted := admission_some_iff.mp hadm
          constructor
          · intro herror
            simp only at herror
            have hplace := place_placement h hadmitted
            generalize chain.place block parent work = outcome at *
            cases hplace with
            | extended _ => cases herror
            | side _ _ => cases herror
            | reorganized _ _ _ _ => cases herror
            | failed stop _ tip heavier forks fails _ _ =>
                rw [Except.error.inj herror] at fails
                exact Or.inr ⟨_, _, _, _, _, _, hadmitted, tip, heavier, forks, fails⟩
          · rintro (hstop | ⟨parent', work', path, keep, fork, post, hadmitted', tip, heavier,
              forks, fails⟩)
            · rw [hadm] at hstop
              cases hstop
            · have hsame := admission_some_iff.mpr hadmitted'
              rw [hadm] at hsame
              obtain ⟨rfl, rfl⟩ := Prod.mk.inj (Option.some.inj (Except.ok.inj hsame))
              simp only
              rw [place_reorg h forks tip heavier]
              cases hpath : connectForkPath path (rewind post chain) with
              | mk result done =>
                  rw [hpath] at fails
                  simp only at fails
                  rw [fails]

/-- An error of the block alone restores the active chain. -/
theorem connectAlone_error_same (h : Indexed genesis chain) (order : OrphanOrder) {block : Block}
    {e : Stop} (herror : (connectAlone order block chain).1 = .error e) :
    SameActive chain (connectAlone order block chain).2 := by
  rw [connectAlone_eq] at herror ⊢
  cases hadm : chain.admission block with
  | error stop => exact SameActive.refl chain
  | ok found =>
      rw [hadm] at herror
      cases found with
      | none => cases herror
      | some pair =>
          have hplace := place_placement h (admission_some_iff.mp hadm)
          simp only at herror ⊢
          generalize chain.place block pair.1 pair.2 = outcome at *
          cases hplace with
          | extended _ => cases herror
          | side _ _ => cases herror
          | reorganized _ _ _ _ => cases herror
          | failed _ _ _ _ _ _ _ _ => exact ⟨rfl, rfl, rfl, rfl⟩

/-! ## The error of a call -/

/-- The promotion loop stops exactly as an activation does, unless its turns run out. -/
theorem processOrphansLoop_stop_iff (order : OrphanOrder) {stop : Stop} (hstop : stop ≠ .hang) :
    ∀ (fuel : ℕ) (queue : List Block) (chain : Chain),
      (processOrphansLoop order fuel queue chain).1 = .error stop ↔
        ∃ a ∈ promotionActivations order fuel queue chain,
          (connectAlone order a.2 a.1).1 = .error stop := by
  intro fuel
  induction fuel with
  | zero => simp [processOrphansLoop, promotionActivations, hstop.symm]
  | succ fuel ih =>
      intro queue chain
      cases queue with
      | nil => simp [processOrphansLoop, promotionActivations]
      | cons block queue =>
          unfold processOrphansLoop promotionActivations
          cases hconnect : connectAlone order block chain with
          | mk result placed =>
            cases result with
            | error e => simp [hconnect]
            | ok value =>
                simp only [List.mem_cons, exists_eq_or_imp, hconnect, reduceCtorEq, false_or]
                exact ih _ _

/-- A call stops as the block does or an orphan promoted after it. -/
theorem connectBlock_stop_iff (order : OrphanOrder) (block : Block) (chain : Chain) {stop : Stop}
    (hstop : stop ≠ .hang) :
    (connectBlock order block chain).1 = .error stop ↔
      ∃ a ∈ activations order block chain, (connectAlone order a.2 a.1).1 = .error stop := by
  rw [connectBlock_eq, activations]
  cases hconnect : connectAlone order block chain with
  | mk result placed =>
    cases result with
    | error e => simp [hconnect]
    | ok value =>
        simp only [List.mem_cons, exists_eq_or_imp, hconnect, reduceCtorEq, false_or]
        split
        · rw [← processOrphansLoop_stop_iff order hstop]
          change _ ↔ (processOrphans order placed).1 = _
          cases processOrphans order placed with
          | mk outcome done => cases outcome <;> simp
        · simp

/-- A call fails with the error of the block or of an orphan promoted after it. -/
theorem connectBlock_error_iff (order : OrphanOrder) (block : Block) (chain : Chain)
    (e : ChainError) :
    (connectBlock order block chain).1 = .error (.error e) ↔
      ∃ a ∈ activations order block chain,
        (connectAlone order a.2 a.1).1 = .error (.error e) :=
  connectBlock_stop_iff order block chain (by rintro ⟨⟩)

/-! ## After the block became the tip -/

/-- What was known stays known, and the tip is a block unknown to `chain`. -/
structure NewTip (chain chain' : Chain) : Prop where
  known : ∀ hash, chain'.known.lookup hash = none → chain.known.lookup hash = none
  tip : chain.known.lookup chain'.tipHash = none

theorem Placement.known {block : Block} {parent : BlockMeta}
    {work : ChainWork} {outcome : ChainResult ConnectResult × Chain}
    (hplace : Placement chain block parent work outcome) (hash : Hash256)
    (hnone : outcome.2.known.lookup hash = none) : chain.known.lookup hash = none := by
  have hpath : ∀ {path post : List Block} {done : Chain},
      ConnectsPath path (rewind post chain) done → done.known.lookup hash = none →
        chain.known.lookup hash = none := by
    intro path post done hconnects hdone
    by_contra hsome
    exact hconnects.known_isSome (by rwa [rewind_known]) hdone
  cases hplace with
  | extended _ =>
      change (chain.pushTip block _ _).known.lookup hash = none at hnone
      rw [pushTip_known] at hnone
      split at hnone
      · cases hnone
      · exact hnone
  | side _ _ =>
      rw [storeSide_known] at hnone
      split at hnone
      · cases hnone
      · exact hnone
  | reorganized _ _ _ connects => exact hpath connects hnone
  | failed _ _ _ _ _ _ _ connects => exact hpath connects hnone

/-- A block that becomes the tip was unknown; otherwise the tip stays. -/
theorem Placement.tipHash {block : Block} {parent : BlockMeta} {work : ChainWork}
    {outcome : ChainResult ConnectResult × Chain}
    (hplace : Placement chain block parent work outcome) :
    outcome.2.tipHash = chain.tipHash ∨ outcome.2.tipHash = block.hash := by
  cases hplace with
  | extended _ => exact Or.inr (tipHash_of_append chain.blocks rfl)
  | side _ _ => exact Or.inl rfl
  | failed _ _ _ _ _ _ _ _ => exact Or.inl rfl
  | reorganized _ _ forks connects =>
      have hnew := forks.connects_tipHash connects
      exact Or.inr hnew

theorem NewTip.connectAlone {current : Chain} (h : NewTip chain current)
    (hcurrent : Indexed genesis current) (order : OrphanOrder) (block : Block) :
    NewTip chain (connectAlone order block current).2 := by
  rw [connectAlone_eq]
  cases hadm : current.admission block with
  | error stop => exact h
  | ok found =>
      cases found with
      | none =>
          obtain ⟨orphans, seq, journal, heq, -⟩ := insertOrphan_spec order current block
          simp only [heq]
          exact ⟨h.known, h.tip⟩
      | some pair =>
          have hadmitted := admission_some_iff.mp hadm
          have hplace := place_placement hcurrent hadmitted
          refine ⟨fun hash hnone ↦ h.known hash (hplace.known hash hnone), ?_⟩
          rcases hplace.tipHash with heq | heq
          · rw [heq]
            exact h.tip
          · rw [heq]
            exact h.known _ hadmitted.unknown

/-- The block that became the tip is new. -/
theorem connectAlone_newTip (h : Indexed genesis chain) (order : OrphanOrder) (block : Block)
    {result : ConnectResult} (hok : (connectAlone order block chain).1 = .ok result)
    (htip : result.becameTip) : NewTip chain (connectAlone order block chain).2 := by
  rw [connectAlone_eq] at hok ⊢
  cases hadm : chain.admission block with
  | error stop =>
      rw [hadm] at hok
      cases hok
  | ok found =>
      rw [hadm] at hok
      cases found with
      | none =>
          obtain rfl := Except.ok.inj hok
          cases htip
      | some pair =>
          have hadmitted := admission_some_iff.mp hadm
          have hplace := place_placement h hadmitted
          have hknown := hplace.known
          simp only at hok ⊢
          generalize chain.place block pair.1 pair.2 = outcome at *
          refine ⟨hknown, ?_⟩
          cases hplace with
          | extended _ =>
              have htip' : (chain.extendTip block pair.1 pair.2).tipHash = block.hash :=
                tipHash_of_append chain.blocks rfl
              rw [htip']
              exact hadmitted.unknown
          | side _ _ =>
              obtain rfl := Except.ok.inj hok
              cases htip
          | failed _ _ _ _ _ _ _ _ => cases hok
          | reorganized _ _ forks connects =>
              have hnew := forks.connects_tipHash connects
              exact (congrArg chain.known.lookup hnew).trans hadmitted.unknown

omit [Features] in
/-- The active chain has changed once a new block is the tip. -/
theorem NewTip.not_same (h : Indexed genesis chain) {chain' : Chain} (hnew : NewTip chain chain') :
    ¬ SameActive chain chain' := by
  intro hsame
  obtain ⟨-, tip, entry, -, htipHash, hentry, -⟩ := h.exists_tip
  have htip := hnew.tip
  rw [tipHash, hsame.blocks] at htip
  change chain.known.lookup chain.tipHash = none at htip
  rw [htipHash, hentry] at htip
  cases htip

theorem activations_coherent (h : Coherent genesis chain) (order : OrphanOrder)
    (block : Block) : ∀ a ∈ activations order block chain, Coherent genesis a.1 :=
  activations_invariant order block chain (Coherent genesis)
    (fun _ _ hc hfewer ↦ hfewer.coherent hc)
    (fun _ b hc _ ↦ connectAlone_coherent hc order b) h

/-- If orphans are promoted at all, the active chain has changed. -/
theorem connectBlock_not_same (h : Coherent genesis chain) (order : OrphanOrder) (block : Block)
    (hpromoted : (activations order block chain).tail ≠ []) :
    ¬ SameActive chain (connectBlock order block chain).2 := by
  have hnew : ∀ result, (connectAlone order block chain).1 = .ok result → result.becameTip →
      NewTip chain (connectAlone order block chain).2 :=
    fun result ↦ connectAlone_newTip h.indexed order block
  have hcoherent := connectAlone_coherent h order block
  rw [connectBlock_eq]
  unfold activations at hpromoted
  rw [List.tail_cons] at hpromoted
  cases hconnect : connectAlone order block chain with
  | mk outcome placed =>
    rw [hconnect] at hpromoted hnew hcoherent
    cases outcome with
    | error stop => exact (hpromoted rfl).elim
    | ok result =>
        simp only at hpromoted ⊢
        split
        · rename_i htip
          have hplaced := hnew result rfl htip
          have hloop := processOrphansLoop_induction order
            (fun current ↦ Coherent genesis current ∧ NewTip chain current)
            (by
              rintro current _ ⟨hcurrent, htip⟩ hfewer
              refine ⟨hfewer.coherent hcurrent, ?_⟩
              obtain ⟨orphans, rfl, -⟩ := hfewer
              exact ⟨htip.known, htip.tip⟩)
            (placed.orphans.entries.length + 1) (placed.enqueueReadyOrphans order []).2
            (placed.enqueueReadyOrphans order []).1
            (fun current b hc _ ↦ ⟨connectAlone_coherent hc.1 order b,
              hc.2.connectAlone hc.1.indexed order b⟩)
            ⟨(enqueueReadyOrphans_fewer order placed []).coherent hcoherent,
              hplaced.known, hplaced.tip⟩
          have hdone : NewTip chain (processOrphans order placed).2 := hloop.2
          cases hprocess : processOrphans order placed with
          | mk promoted done =>
            rw [hprocess] at hdone
            cases promoted <;> exact hdone.not_same h.indexed
        · rename_i htip
          rw [if_neg htip] at hpromoted
          exact (hpromoted rfl).elim

/-- Errors leave the active chain alone precisely when no orphan that the call
promotes is refused. -/
theorem connectBlock_error_atomic_iff (h : Reachable genesis chain) (order : OrphanOrder)
    (block : Block) :
    (∀ e, (connectBlock order block chain).1 = .error (.error e) →
      SameActive chain (connectBlock order block chain).2) ↔
      ∀ a ∈ (activations order block chain).tail, ∀ e, ¬ Refused a.1 a.2 e := by
  have hc := ReachableWith.coherent h
  constructor
  · intro hatomic a ha e hrefused
    have hmem : a ∈ activations order block chain := List.mem_of_mem_tail ha
    have hindexed := (activations_coherent hc order block a hmem).indexed
    have herror : (connectBlock order block chain).1 = .error (.error e) :=
      (connectBlock_error_iff order block chain e).mpr
        ⟨a, hmem, (connectAlone_error_iff hindexed order).mpr hrefused⟩
    exact connectBlock_not_same hc order block (List.ne_nil_of_mem ha) (hatomic e herror)
  · intro hnone e herror
    obtain ⟨a, ha, hfailed⟩ := (connectBlock_error_iff order block chain e).mp herror
    rcases List.mem_cons.mp ha with rfl | hpromoted
    · -- the block itself failed, so nothing was promoted
      have hsame := connectAlone_error_same hc.indexed order hfailed
      rw [connectBlock_eq]
      cases hconnect : connectAlone order block chain with
      | mk outcome placed =>
        rw [hconnect] at hfailed hsame
        simp only at hfailed
        rw [hfailed]
        exact hsame
    · have hindexed := (activations_coherent hc order block a ha).indexed
      exact (hnone a hpromoted e ((connectAlone_error_iff hindexed order).mp hfailed)).elim

end Chain

end Bitrst

namespace Bitrst.Sample

/-- A failing reorganisation leaves the active chain as it was. -/
theorem spendsFirst_error_atomic :
    (Chain.connectBlock order spendsFirst (forked (grown first))).1 =
        .error (.error (.utxo (.missingInput coinId1 0))) ∧
      Chain.SameActive (forked (grown first))
        (Chain.connectBlock order spendsFirst (forked (grown first))).2 := by
  have herror : (Chain.connectBlock order spendsFirst (forked (grown first))).1 =
      .error (.error (.utxo (.missingInput coinId1 0))) := by
    rw [spendsFirst_fails]
  refine ⟨herror, (Chain.connectBlock_error_atomic_iff forked_reachable order spendsFirst).mpr ?_
    _ herror⟩
  rw [Chain.activations_eq_singleton forked_reachable.coherent.indexed rfl order
    spendsFirst_challenges.admitted]
  intro a ha
  cases ha

def waiting : Chain := start.insertOrphan order damaged

theorem waiting_reachable : Chain.Reachable genesis waiting := by
  have horphaned : start.admission damaged = .ok none := by decide +kernel
  have hcall : Chain.connectBlock order damaged start = (.ok (.orphaned damaged.hash), waiting) :=
    Chain.connectBlock_orphaned order horphaned
  have hstart : Chain.Reachable genesis start := start_reachable
  have hnext := Chain.ReachableWith.connect order damaged hstart
    (by rw [hcall]; simp [Returned]) (by simp)
  rwa [hcall] at hnext

/-- An orphan that was stored unchecked makes the call fail that connects its parent. -/
theorem waiting_connects_and_fails : Chain.Reachable genesis waiting ∧
    (Chain.connectBlock order first waiting).1 = .error (.error .merkleRootMismatch) ∧
      (Chain.connectBlock order first waiting).2.blocks ≠ waiting.blocks := by
  refine ⟨waiting_reachable, ?_⟩
  have hrun : (Chain.Fits waiting first genesisMeta ∧
      first.header.prevBlockhash = waiting.tipHash) ∧
      (Chain.processOrphans order (waiting.extendTip first genesisMeta easyWork)).1 =
        .error (.error .merkleRootMismatch) ∧
      (Chain.processOrphans order
        (waiting.extendTip first genesisMeta easyWork)).2.blocks ≠ waiting.blocks := by
    decide +kernel
  obtain ⟨⟨hfits, htip⟩, hpromoted⟩ := hrun
  have hadm := hfits.admitted blockWork_easyBits
  have hplace : waiting.place first genesisMeta easyWork = (.ok (.connected 1 first.hash),
      waiting.extendTip first genesisMeta easyWork) := Chain.place_extended htip
  rw [Chain.connectBlock_eq, Chain.connectAlone_eq_place order hadm, hplace]
  cases hprocess : Chain.processOrphans order (waiting.extendTip first genesisMeta easyWork) with
  | mk outcome done =>
    rw [hprocess] at hpromoted
    obtain ⟨rfl, hblocks⟩ : outcome = _ ∧ _ := hpromoted
    simp only [ConnectResult.becameTip, hprocess]
    exact ⟨rfl, hblocks⟩

end Bitrst.Sample
