import Bitrst.BlockRemoval
import Bitrst.HeaderValidation
import Bitrst.MempoolRemaining

/-!
# What a synchronisation loses

A resident that is not affected stays if it is valid behind others that stay, and a
transaction of a disconnected block returns if it can be admitted beside these.  A
resident that does neither is not offered again, though it may fit behind what
stays or returns: behind a transaction that a connected block confirms, or one that
a disconnected block gives back.  `synchronizeToChain_loses_nothing_iff` says that
nothing else is lost.
-/

namespace Bitrst

open Support

variable [Crypto] [Features]

/-! ## Blocks of the index start with their coinbase -/

namespace Chain

variable {genesis : Block} {chain : Chain}

/-- Every indexed block starts with its coinbase. -/
def CoinbasesFirst (chain : Chain) : Prop :=
  ∀ hash entry, chain.known.lookup hash = some entry → firstIsCoinbase entry.block = true

theorem connectAlone_coinbasesFirst (h : Indexed genesis chain) (hfirst : CoinbasesFirst chain)
    (order : OrphanOrder) (block : Block) :
    CoinbasesFirst (connectAlone order block chain).2 := by
  intro hash entry hentry
  rw [connectAlone_eq] at hentry
  cases hadm : chain.admission block with
  | error stop =>
      rw [hadm] at hentry
      exact hfirst hash entry hentry
  | ok found =>
      cases found with
      | none =>
          obtain ⟨orphans, seq, journal, heq, -⟩ := insertOrphan_spec order chain block
          rw [hadm] at hentry
          simp only [heq] at hentry
          exact hfirst hash entry hentry
      | some pair =>
          have hadmitted := admission_some_iff.mp hadm
          rw [hadm] at hentry
          rcases (place_placement h hadmitted).known_cases hentry with heq | ⟨old, hold, heq⟩
          · rw [heq]
            exact (validateBlockForParent_ok_iff.mp hadmitted.valid).1.firstIsCoinbase
          · rw [← heq]
            exact hfirst hash old hold

theorem Reachable.coinbasesFirst (h : Reachable genesis chain) : CoinbasesFirst chain :=
  (h.invariant (fun chain ↦ Coherent genesis chain ∧ CoinbasesFirst chain)
    (by
      intro networkTime capacity chain created
      refine ⟨withJournalCapacities_coherent created, ?_⟩
      have hvalid := (withJournalCapacities_checked created).2
      obtain ⟨work, -, rfl⟩ := withJournalCapacities_spec created
      intro hash entry hentry
      change ((blank networkTime capacity).pushTip genesis 0 work).known.lookup hash = _ at hentry
      rw [pushTip_known] at hentry
      split at hentry
      · rw [← Option.some.inj hentry]
        exact (validateBlockForParent_ok_iff.mp hvalid).1.firstIsCoinbase
      · cases hentry)
    (by
      rintro c _ ⟨hc, hfirst⟩ hfewer
      refine ⟨hfewer.coherent hc, ?_⟩
      obtain ⟨orphans, rfl, -⟩ := hfewer
      exact hfirst)
    (fun order _ block hc _ ↦ ⟨connectAlone_coherent hc.1 order block,
      connectAlone_coinbasesFirst hc.1.indexed hc.2 order block⟩)
    (fun _ _ hc ↦ ⟨hc.1.congr rfl rfl rfl rfl, hc.2⟩)
    (fun _ _ hc ↦ ⟨hc.1.congr rfl rfl rfl rfl, hc.2⟩)).2

end Chain

namespace Mempool

variable {genesis : Block} {chain₀ chain : Chain} {chainUtxo : UtxoSet} {pool current : Mempool}
  {connected disconnected : List Block} {candidates added : List Transaction} {tx : Transaction}

omit [Crypto] [Features] in
/-- Of a block that starts with its coinbase every other transaction is restorable. -/
theorem mem_restorable {blocks : List Block} {b : Block} (hb : b ∈ blocks)
    (hfirst : Chain.firstIsCoinbase b = true) (htx : tx ∈ b.transactions)
    (hcoinbase : tx.isCoinbase = false) : tx ∈ restorable blocks := by
  refine List.mem_flatMap.mpr ⟨b, hb, List.mem_filter.mpr ⟨?_, by simp [hcoinbase]⟩⟩
  unfold Chain.firstIsCoinbase at hfirst
  cases htxs : b.transactions with
  | nil =>
      rw [htxs] at htx
      cases htx
  | cons first rest =>
      rw [htxs] at htx hfirst
      rcases List.mem_cons.mp htx with rfl | hrest
      · change tx.isCoinbase = true at hfirst
        rw [hcoinbase] at hfirst
        cases hfirst
      · exact hrest

/-! ## What returns -/

/-- The candidate stands apart from the residents that stay, and is valid behind some that stay and
some that return. -/
inductive Returns (pool : Mempool) (blocks : List Block) (candidates : List Transaction)
    (chainUtxo : UtxoSet) : Transaction → Prop
  | step {staying found : List Transaction} {tx : Transaction}
      (hstaying : ∀ other ∈ staying, Stays pool blocks chainUtxo other)
      (hfound : ∀ other ∈ found, Returns pool blocks candidates chainUtxo other)
      (hcandidate : tx ∈ candidates)
      (hapart : ∀ other, Stays pool blocks chainUtxo other → Apart tx other)
      (hvalid : isValidForView tx (chainUtxo.applyTransactions (staying ++ found)) = true) :
      Returns pool blocks candidates chainUtxo tx

/-- The resident does not stay and is no candidate, though it stands apart from the residents that
stay and is valid behind some that stay and some that return. -/
structure Stranded (pool : Mempool) (blocks : List Block) (candidates : List Transaction)
    (chainUtxo : UtxoSet) (tx : Transaction) : Prop where
  resident : tx ∈ pool.transactions
  goes : ¬ Stays pool blocks chainUtxo tx
  not_candidate : tx ∉ candidates
  apart : ∀ other, Stays pool blocks chainUtxo other → Apart tx other
  valid : ∃ staying found, (∀ other ∈ staying, Stays pool blocks chainUtxo other) ∧
    (∀ other ∈ found, Returns pool blocks candidates chainUtxo other) ∧
      isValidForView tx (chainUtxo.applyTransactions (staying ++ found)) = true

omit [Features] in
theorem Returns.candidate (h : Returns pool connected candidates chainUtxo tx) :
    tx ∈ candidates := by
  cases h with
  | step _ _ hcandidate _ _ => exact hcandidate

section Remaining

variable {remaining : Mempool} (hsound : Sound remaining)
  (hremaining : ∀ tx, tx ∈ remaining.transactions ↔ Stays pool connected chainUtxo tx)

include hsound hremaining

omit [Features] in
theorem apart_of_stays (hfresh : remaining.entries.lookup tx.txid = none)
    (hunspent : ∀ input ∈ tx.inputs, remaining.spends.lookup input.outPoint = none)
    (other : Transaction) (hstays : Stays pool connected chainUtxo other) : Apart tx other := by
  have hmem := (hremaining other).mpr hstays
  exact ⟨hsound.lookup_none_iff.mp hfresh other hmem,
    fun input hinput ↦ hsound.spends_none_iff.mp (hunspent input hinput) other hmem⟩

omit [Features] in
/-- What can be admitted to what remains returns. -/
theorem Admissible.returns (h : Admissible remaining chainUtxo candidates tx) :
    Returns pool connected candidates chainUtxo tx := by
  induction h with
  | step _ hcandidate hfresh hunspent hvalid ih =>
      exact .step (fun other hother ↦ (hremaining other).mp hother) ih hcandidate
        (apart_of_stays hsound hremaining hfresh hunspent) hvalid

omit [Features] in
/-- What returns can be admitted to what remains, where the candidates spend different outpoints. -/
theorem Returns.admissible
    (hdisjoint : ∀ tx ∈ candidates, ∀ tx' ∈ candidates, tx ≠ tx' →
      (tx.inputs.map TxInput.outPoint).Disjoint (tx'.inputs.map TxInput.outPoint))
    (honce : ∀ outpoint, chainUtxo.SuppliesOnce (remaining.transactions ++ candidates) outpoint)
    (h : Returns pool connected candidates chainUtxo tx) :
    Admissible remaining chainUtxo candidates tx := by
  induction h with
  | @step staying found tx hstaying _ hcandidate hapart hvalid ih =>
      by_cases hself : tx ∈ found
      · exact ih tx hself
      have hclear : ∀ other ∈ remaining.transactions, Apart tx other := fun other hother ↦
        hapart other ((hremaining other).mp hother)
      refine .step ih hcandidate ?_ (fun input hinput ↦ ?_)
        (isValidForView_mono hvalid fun input hinput entry hentry ↦ ?_)
      · exact hsound.lookup_none_iff.mpr fun other hother ↦ (hclear other hother).1
      · exact hsound.spends_none_iff.mpr fun other hother ↦ (hclear other hother).2 input hinput
      · have hcandidates : found ⊆ candidates := fun other hother ↦ (ih other hother).mem
        have hsub : staying ++ found ⊆ remaining.transactions ++ found :=
          List.append_subset.mpr ⟨fun other hother ↦ List.mem_append_left _
            ((hremaining other).mpr (hstaying other hother)), List.subset_append_right _ _⟩
        have hunspent : ∀ other ∈ remaining.transactions ++ found,
            input.outPoint ∉ other.spentOutPoints := by
          intro other hother hspent
          have hinput' := Transaction.mem_spentOutPoints hspent
          rcases List.mem_append.mp hother with hother | hother
          · exact (hclear other hother).2 input hinput hinput'
          · have hne : tx ≠ other := fun heq ↦ hself (heq ▸ hother)
            exact hdisjoint tx hcandidate other (hcandidates hother) hne
              (List.mem_map_of_mem hinput) hinput'
        refine (UtxoSet.lookup_applyTransactions_iff hunspent ((honce _).anti ?_)).mpr
          ((UtxoSet.supplies_of_lookup hentry).mono hsub)
        exact List.append_subset.mpr ⟨List.subset_append_left _ _,
          List.Subset.trans hcandidates (List.subset_append_right _ _)⟩

end Remaining

/-! ## What is lost -/

/-- The checks of `accept_tx` refuse the transaction, whatever room the pool has. -/
def Refuses (pool : Mempool) (tx : Transaction) (chainUtxo : UtxoSet) : Prop :=
  ∃ e, pool.validateCandidate tx chainUtxo = .error e ∧
    pool.acceptTx tx chainUtxo = (.error e, pool)

omit [Features] in
theorem refuses_iff :
    Refuses pool tx chainUtxo ↔ ¬ ∃ found, pool.validateCandidate tx chainUtxo = .ok found := by
  rw [← validateCandidate_error_iff]
  constructor
  · rintro ⟨e, hrefused, -⟩
    exact ⟨e, hrefused⟩
  · rintro ⟨e, hrefused⟩
    exact ⟨e, hrefused, by rw [acceptTx, hrefused]⟩

/-- A transaction of the pool or of a disconnected block that is absent after the synchronisation
is refused by the pool that this leaves. -/
def LosesNothing (pool : Mempool) (chainUtxo : UtxoSet) (connected disconnected : List Block) :
    Prop :=
  ∀ tx : Transaction, tx.isCoinbase = false →
    (tx ∈ pool.transactions ∨ ∃ b ∈ disconnected, tx ∈ b.transactions) →
      (pool.synchronizeToChain chainUtxo connected disconnected).contains tx.txid = false →
        Refuses (pool.synchronizeToChain chainUtxo connected disconnected) tx chainUtxo

omit [Features] in
/-- The residents that an ended restoration admits without their being candidates were stranded. -/
theorem Restoring.stranded {remaining : Mempool} (hsound : Sound remaining)
    (hremaining : ∀ tx, tx ∈ remaining.transactions ↔ Stays pool connected chainUtxo tx)
    (h : Restoring remaining current chainUtxo candidates added)
    (hresident : tx ∈ pool.transactions) (hnot : tx ∉ candidates)
    (hadmits : ∃ found, current.validateCandidate tx chainUtxo = .ok found) :
    Stranded pool connected candidates chainUtxo tx := by
  obtain ⟨hapart, hvalid⟩ := h.sound.admits_iff.mp hadmits
  rw [h.transactions] at hapart hvalid
  have hstays : ∀ other, Stays pool connected chainUtxo other → Apart tx other := fun other hother ↦
    hapart other (List.mem_append_left _ ((hremaining other).mpr hother))
  exact ⟨hresident, fun hstay ↦ (hstays tx hstay).1 rfl, hnot, hstays, _, _,
    fun other hother ↦ (hremaining other).mp hother,
    fun other hother ↦ (h.admissible other hother).returns hsound hremaining, hvalid⟩

omit [Features] in
/-- A stranded resident is admitted, if it stands apart from what returned and all did that can. -/
theorem Stranded.admitted {remaining : Mempool}
    (hremaining : ∀ tx, tx ∈ remaining.transactions ↔ Stays pool connected chainUtxo tx)
    (honce : ∀ outpoint, chainUtxo.SuppliesOnce (remaining.transactions ++ candidates) outpoint)
    (hrestored : Restoring remaining current chainUtxo candidates added)
    (hall : ∀ other, Returns pool connected candidates chainUtxo other → other ∈ added)
    (h : Stranded pool connected candidates chainUtxo tx)
    (hapart : ∀ other ∈ added, Apart tx other) :
    ∃ found, current.validateCandidate tx chainUtxo = .ok found := by
  obtain ⟨staying, found, hstaying, hfound, hvalid⟩ := h.valid
  have hclear : ∀ other ∈ current.transactions, Apart tx other := by
    intro other hother
    rw [hrestored.transactions] at hother
    rcases List.mem_append.mp hother with hother | hother
    · exact h.apart other ((hremaining other).mp hother)
    · exact hapart other hother
  refine hrestored.sound.admits_iff.mpr ⟨hclear,
    isValidForView_mono hvalid fun input hinput entry hentry ↦ ?_⟩
  have hadded : added ⊆ candidates := fun other hother ↦ (hrestored.admissible other hother).mem
  have hsub : staying ++ found ⊆ current.transactions := by
    rw [hrestored.transactions]
    refine List.append_subset.mpr ⟨fun other hother ↦ ?_, fun other hother ↦ ?_⟩
    · exact List.mem_append_left _ ((hremaining other).mpr (hstaying other hother))
    · exact List.mem_append_right _ (hall other (hfound other hother))
  refine (UtxoSet.lookup_applyTransactions_iff (fun other hother hspent ↦ ?_)
    ((honce _).anti ?_)).mpr ((UtxoSet.supplies_of_lookup hentry).mono hsub)
  · exact (hclear other hother).2 input hinput (Transaction.mem_spentOutPoints hspent)
  · rw [hrestored.transactions]
    exact List.append_subset.mpr ⟨List.subset_append_left _ _,
      List.Subset.trans hadded (List.subset_append_right _ _)⟩

/-- Below the limits, the synchronisation of a pool with a chain that has changed loses nothing if
no resident is stranded.  Where the transactions of the disconnected blocks spend different
outpoints and ids are those of one transaction, it loses nothing precisely when what returns stands
in the way of every stranded resident. -/
theorem synchronizeToChain_loses_nothing_iff (h₀ : Chain.Reachable genesis chain₀)
    (hreachable : Chain.Reachable genesis chain) (h : Synchronised pool chain₀)
    (hconnected : ∀ b ∈ chain.blocks, b ∈ chain₀.blocks ∨ b ∈ connected)
    (hdisconnected : ∀ b ∈ disconnected, ∃ hash entry,
      chain.known.lookup hash = some entry ∧ entry.block = b)
    (hlimits : RestoresBelowLimits (pool.remaining connected chain.utxo) (restorable disconnected)
      chain.utxo) :
    ((∀ tx, ¬ Stranded pool connected (restorable disconnected) chain.utxo tx) →
      LosesNothing pool chain.utxo connected disconnected) ∧
    ((∀ tx ∈ restorable disconnected, ∀ tx' ∈ restorable disconnected, tx ≠ tx' →
        (tx.inputs.map TxInput.outPoint).Disjoint (tx'.inputs.map TxInput.outPoint)) →
      Set.InjOn Transaction.txid ({tx | ∃ b ∈ chain.blocks, tx ∈ b.transactions} ∪
        {tx | tx ∈ pool.transactions ++ restorable disconnected}) →
      (LosesNothing pool chain.utxo connected disconnected ↔
        ∀ tx, Stranded pool connected (restorable disconnected) chain.utxo tx →
          ∃ other, Returns pool connected (restorable disconnected) chain.utxo other ∧
            ¬ Apart tx other)) := by
  have hsound : Sound (pool.remaining connected chain.utxo) := remaining_sound h.sound
  have hremaining : ∀ tx, tx ∈ (pool.remaining connected chain.utxo).transactions ↔
      Stays pool connected chain.utxo tx := fun tx ↦
    h.mem_remaining_iff_stays h₀.backed hreachable.backed hconnected
  obtain ⟨added, hrestored, hrefused⟩ := restoreCandidates_spec hsound hlimits
  have hsync : pool.synchronizeToChain chain.utxo connected disconnected =
      (pool.remaining connected chain.utxo).restoreCandidates (restorable disconnected)
        chain.utxo := rfl
  rw [← hsync] at hrestored hrefused
  -- What is lost is a stranded resident.
  have hlost : ∀ tx, tx.isCoinbase = false →
      (tx ∈ pool.transactions ∨ ∃ b ∈ disconnected, tx ∈ b.transactions) →
        (∃ found, (pool.synchronizeToChain chain.utxo connected disconnected).validateCandidate tx
          chain.utxo = .ok found) →
            Stranded pool connected (restorable disconnected) chain.utxo tx := by
    intro tx hcoinbase hfrom hadmits
    have hnot : tx ∉ restorable disconnected := fun hmem ↦
      validateCandidate_error_iff.mp (hrefused tx hmem) hadmits
    rcases hfrom with hresident | ⟨b, hb, htx⟩
    · exact hrestored.stranded hsound hremaining hresident hnot hadmits
    · obtain ⟨hash, entry, hentry, rfl⟩ := hdisconnected b hb
      have hfirst := hreachable.coinbasesFirst hash entry hentry
      exact (hnot (mem_restorable hb hfirst htx hcoinbase)).elim
  constructor
  · intro hnone tx hcoinbase hfrom _
    exact refuses_iff.mpr fun hadmits ↦ hnone tx (hlost tx hcoinbase hfrom hadmits)
  · intro hdisjoint hinj
    have hsub : (pool.remaining connected chain.utxo).transactions ++ restorable disconnected ⊆
        pool.transactions ++ restorable disconnected :=
      List.append_subset.mpr ⟨fun tx htx ↦ List.mem_append_left _ ((hremaining tx).mp htx).resident,
        List.subset_append_right _ _⟩
    have hinj' := hinj.mono (Set.union_subset_union_right _ fun tx htx ↦ hsub htx)
    have honce : ∀ outpoint, chain.utxo.SuppliesOnce
        ((pool.remaining connected chain.utxo).transactions ++ restorable disconnected) outpoint :=
      hreachable.createdBy.suppliesOnce hinj'
    have hall : ∀ other, Returns pool connected (restorable disconnected) chain.utxo other →
        other ∈ added := fun other hother ↦
      hrestored.mem_added hreachable.createdBy hinj' hdisjoint hsound hrefused
        (hother.admissible hsound hremaining hdisjoint honce)
    constructor
    · intro hnothing tx hstranded
      by_contra hclear
      push Not at hclear
      have hadmits := hstranded.admitted hremaining honce hrestored hall fun other hother ↦
        hclear other ((hrestored.admissible other hother).returns hsound hremaining)
      obtain ⟨hfresh, -, hvalid⟩ := validateCandidate_ok_iff.mp hadmits
      refine refuses_iff.mp (hnothing tx (isValidForView_iff.mp hvalid).2.1
        (Or.inl hstranded.resident) ?_) hadmits
      rw [contains, hfresh]
      rfl
    · intro hblocked tx hcoinbase hfrom _
      refine refuses_iff.mpr fun hadmits ↦ ?_
      obtain ⟨other, hreturns, hclash⟩ := hblocked tx (hlost tx hcoinbase hfrom hadmits)
      refine hclash ((hrestored.sound.admits_iff.mp hadmits).1 other ?_)
      rw [hrestored.transactions]
      exact List.mem_append_right _ (hall other hreturns)

end Mempool

end Bitrst

namespace Bitrst.Sample

theorem confirmed_covered : ∀ b ∈ confirmed.blocks, b ∈ start.blocks ∨ b ∈ [confirming] := by
  decide +kernel

theorem family_confirmed_limits : Mempool.RestoresBelowLimits
    (family.remaining [confirming] confirmed.utxo) (Mempool.restorable []) confirmed.utxo := by
  unfold Mempool.RestoresBelowLimits
  decide +kernel

theorem family_loses_nothing_iff :
    Mempool.LosesNothing family confirmed.utxo [confirming] [] ↔
      ∀ tx, Mempool.Stranded family [confirming] (Mempool.restorable []) confirmed.utxo tx →
        ∃ other, Mempool.Returns family [confirming] (Mempool.restorable []) confirmed.utxo other ∧
          ¬ Mempool.Apart tx other := by
  have hinj : Set.InjOn Transaction.txid ({tx | ∃ b ∈ confirmed.blocks, tx ∈ b.transactions} ∪
      {tx | tx ∈ family.transactions ++ Mempool.restorable []}) := by
    have hnone : family.transactions ++ Mempool.restorable [] = family.transactions :=
      List.append_nil _
    rw [hnone]
    exact txid_injOn_confirmed
  exact (Mempool.synchronizeToChain_loses_nothing_iff start_reachable confirmed_reachable
    family_synchronised confirmed_covered (by simp) family_confirmed_limits).2
      (fun _ htx ↦ nomatch htx) hinj

/-- The child of the parent is lost, though the pool that is left would accept it. -/
theorem confirmed_parent_loses : ¬ ∀ (chain₀ chain : Chain) (pool : Mempool)
    (connected disconnected : List Block), Chain.Reachable genesis chain₀ →
      Chain.Continues chain₀ chain → Mempool.Synchronised pool chain₀ →
        (∀ b, b ∈ connected ↔ b ∈ chain.blocks ∧ b ∉ chain₀.blocks) →
          (∀ b, b ∈ disconnected ↔ b ∈ chain₀.blocks ∧ b ∉ chain.blocks) →
            Mempool.RestoresBelowLimits (pool.remaining connected chain.utxo)
                (Mempool.restorable disconnected) chain.utxo →
              Mempool.LosesNothing pool chain.utxo connected disconnected := by
  intro h
  have hrun : Chain.Reachable genesis start := start_reachable
  have hplace : (start.connectBlock order confirming) =
      (.ok (.connected 1 confirming.hash), confirmed) :=
    (Chain.connectBlock_eq_place hrun.coherent.indexed rfl order confirming_opens.admitted).trans
      confirming_opens.place_eq
  have hcontinues : Chain.Continues start confirmed := by
    have hnext := Chain.Continues.connect order confirming .refl
      (by rw [hplace]; simp [Returned])
    rwa [hplace] at hnext
  have hconnected : ∀ b, b ∈ [confirming] ↔ b ∈ confirmed.blocks ∧ b ∉ start.blocks := by
    have hnew : confirming ∉ start.blocks := by decide +kernel
    intro b
    rw [List.mem_singleton]
    constructor
    · rintro rfl
      exact ⟨List.mem_cons_of_mem _ List.mem_cons_self, hnew⟩
    · rintro ⟨hb, hnot⟩
      rcases List.mem_cons.mp hb with rfl | hb
      · exact (hnot List.mem_cons_self).elim
      · exact List.mem_singleton.mp hb
  have hdisconnected : ∀ b, b ∈ [] ↔ b ∈ start.blocks ∧ b ∉ confirmed.blocks := by
    intro b
    constructor
    · rintro ⟨⟩
    · rintro ⟨hb, hnot⟩
      rw [List.mem_singleton.mp hb] at hnot
      exact (hnot List.mem_cons_self).elim
  have hkept := h start confirmed family [confirming] [] hrun hcontinues family_synchronised
    hconnected hdisconnected family_confirmed_limits childTx (by decide +kernel)
    (Or.inl (by rw [family_transactions]; simp)) (by decide +kernel)
  apply Mempool.refuses_iff.mp hkept
  have hadmits : ((family.synchronizeToChain confirmed.utxo [confirming] []).validateCandidate
      childTx confirmed.utxo).isOk = true := by decide +kernel
  cases hfound : (family.synchronizeToChain confirmed.utxo [confirming] []).validateCandidate
      childTx confirmed.utxo with
  | ok found => exact ⟨found, rfl⟩
  | error e =>
      rw [hfound] at hadmits
      cases hadmits

end Bitrst.Sample
