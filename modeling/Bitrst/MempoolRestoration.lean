import Bitrst.MempoolViews

/-!
# Restoring candidates in any order

Candidates arrive in no particular order, and a pass admits those whose parents
are there by then.  Below the limits every pass only adds residents, so what can
be admitted is a least set closed under admission, and passes are repeated until
one admits nothing.  Candidates that spend different outpoints never stand in the
way of each other, so every order of the list reaches all of that set.
-/

namespace Bitrst

open Support

variable [Crypto]

namespace Mempool

variable {pool current : Mempool} {chainUtxo : UtxoSet}
  {candidates pending added : List Transaction} {tx : Transaction}

/-! ## What can be admitted -/

/-- A new candidate, apart from what the residents spend, that is valid behind the residents and
some candidates that can be admitted. -/
inductive Admissible (pool : Mempool) (chainUtxo : UtxoSet) (candidates : List Transaction) :
    Transaction → Prop
  | step {found : List Transaction} {tx : Transaction}
      (hfound : ∀ other ∈ found, Admissible pool chainUtxo candidates other)
      (htx : tx ∈ candidates) (hfresh : pool.entries.lookup tx.txid = none)
      (hunspent : ∀ input ∈ tx.inputs, pool.spends.lookup input.outPoint = none)
      (hvalid :
        isValidForView tx (chainUtxo.applyTransactions (pool.transactions ++ found)) = true) :
      Admissible pool chainUtxo candidates tx

theorem Admissible.mem (h : Admissible pool chainUtxo candidates tx) : tx ∈ candidates := by
  cases h with
  | step _ htx _ _ _ => exact htx

/-- Only the members of the list matter. -/
theorem Admissible.subset {candidates' : List Transaction} (hsub : candidates ⊆ candidates')
    (h : Admissible pool chainUtxo candidates tx) : Admissible pool chainUtxo candidates' tx := by
  induction h with
  | step _ htx hfresh hunspent hvalid ih => exact .step ih (hsub htx) hfresh hunspent hvalid

/-! ## What the passes keep -/

/-- The residents of the first pool come first, and then candidates that can be admitted. -/
structure Restoring (pool current : Mempool) (chainUtxo : UtxoSet)
    (candidates added : List Transaction) : Prop where
  sound : Sound current
  transactions : current.transactions = pool.transactions ++ added
  admissible : ∀ tx ∈ added, Admissible pool chainUtxo candidates tx

theorem Restoring.start (h : Sound pool) : Restoring pool pool chainUtxo candidates [] :=
  ⟨h, (List.append_nil _).symm, by simp⟩

theorem Restoring.extend (h : Restoring pool current chainUtxo candidates added)
    (hpool : Sound pool) (htx : tx ∈ candidates) {fee : UInt64} {candidate : MempoolEntry}
    (hvalid : current.validateCandidate tx chainUtxo = .ok (fee, candidate)) :
    Restoring pool (current.insertEntry tx.txid candidate) chainUtxo candidates
      (added ++ [tx]) := by
  obtain ⟨hfresh, hunspent, hview⟩ := validateCandidate_ok_iff.mp ⟨_, hvalid⟩
  refine ⟨(validateCandidate_ok hvalid).insert_sound h.sound [], ?_, ?_⟩
  · rw [h.sound.transactions_insertEntry hvalid, h.transactions, List.append_assoc]
  · have hold : pool.transactions ⊆ current.transactions := by
      rw [h.transactions]
      exact List.subset_append_left _ _
    have hadmissible : Admissible pool chainUtxo candidates tx := by
      refine .step h.admissible htx ?_ (fun input hinput ↦ ?_) ?_
      · exact hpool.lookup_none_iff.mpr fun other hother ↦
          h.sound.lookup_none_iff.mp hfresh other (hold hother)
      · exact hpool.spends_none_iff.mpr fun other hother ↦
          h.sound.spends_none_iff.mp (hunspent input hinput) other (hold hother)
      · rw [← h.transactions]
        exact hview
    intro other hother
    rcases List.mem_append.mp hother with hother | hother
    · exact h.admissible other hother
    · rw [List.mem_singleton.mp hother]
      exact hadmissible

/-- One pass admits some of the candidates and keeps the others; if it keeps as many as it is
given, all of them are refused by the pool as it is. -/
theorem Restoring.pass (h : Restoring pool current chainUtxo candidates added)
    (hpool : Sound pool) (hpending : pending ⊆ candidates)
    (hlimits : ∀ offer ∈ passOffers chainUtxo pending current,
      ¬ offer.1.wouldExceedLimits offer.2.serializedSize) :
    ∃ more, Restoring pool (restorePass chainUtxo pending current).2 chainUtxo candidates
        (added ++ more) ∧
      (∀ tx ∈ pending, tx ∈ (restorePass chainUtxo pending current).1 ∨ tx ∈ more) ∧
      ((restorePass chainUtxo pending current).1.length = pending.length →
        (restorePass chainUtxo pending current).2 = current ∧
          ∀ tx ∈ pending, ∃ e, current.validateCandidate tx chainUtxo = .error e) := by
  induction pending generalizing current added with
  | nil => exact ⟨[], by rwa [List.append_nil], by simp, by simp [restorePass]⟩
  | cons tx rest ih =>
      have hrest : rest ⊆ candidates := fun other hother ↦ hpending (List.mem_cons_of_mem _ hother)
      have hlater : ∀ offer ∈ passOffers chainUtxo rest (current.acceptTx tx chainUtxo).2,
          ¬ offer.1.wouldExceedLimits offer.2.serializedSize :=
        fun offer hoffer ↦ hlimits offer (List.mem_cons_of_mem _ hoffer)
      rcases @acceptTx_offer _ _ chainUtxo _ (hlimits (current, tx) List.mem_cons_self) with
        ⟨e, hrefused, heq⟩ | ⟨fee, candidate, hvalid, heq⟩
      · rw [heq] at hlater
        obtain ⟨more, hnext, hall, hstuck⟩ := ih h hrest hlater
        simp only [restorePass, heq, List.length_cons, Nat.add_right_cancel_iff]
        refine ⟨more, hnext, ?_, fun hlength ↦ ?_⟩
        · intro other hother
          rcases List.mem_cons.mp hother with rfl | hother
          · exact Or.inl List.mem_cons_self
          · exact (hall other hother).imp_left (List.mem_cons_of_mem _)
        · obtain ⟨hsame, hothers⟩ := hstuck hlength
          exact ⟨hsame, List.forall_mem_cons.mpr ⟨⟨e, hrefused⟩, hothers⟩⟩
      · rw [heq] at hlater
        obtain ⟨more, hnext, hall, -⟩ :=
          ih (h.extend hpool (hpending List.mem_cons_self) hvalid) hrest hlater
        simp only [restorePass, heq]
        refine ⟨tx :: more, by simpa using hnext, ?_, fun hlength ↦ ?_⟩
        · intro other hother
          rcases List.mem_cons.mp hother with rfl | hother
          · exact Or.inr List.mem_cons_self
          · exact (hall other hother).imp_right (List.mem_cons_of_mem _)
        · have hle := (restorePass_remaining chainUtxo rest
            (current.insertEntry tx.txid candidate)).length_le
          rw [hlength, List.length_cons] at hle
          omega

/-- The passes end when every candidate is admitted or refused. -/
theorem Restoring.loop (n : ℕ) (h : Restoring pool current chainUtxo candidates added)
    (hpool : Sound pool) (hpending : pending ⊆ candidates) (hfuel : pending.length < n)
    (hlimits : ∀ offer ∈ loopOffers chainUtxo n pending current,
      ¬ offer.1.wouldExceedLimits offer.2.serializedSize) :
    ∃ more, Restoring pool (restoreLoop chainUtxo n pending current) chainUtxo candidates
        (added ++ more) ∧
      ∀ tx ∈ pending, tx ∈ more ∨
        ∃ e, (restoreLoop chainUtxo n pending current).validateCandidate tx chainUtxo =
          .error e := by
  induction n generalizing pending current added with
  | zero => omega
  | succ n ih =>
      unfold loopOffers at hlimits
      simp only at hlimits
      obtain ⟨more, hnext, hall, hstuck⟩ := h.pass hpool hpending
        fun offer hoffer ↦ hlimits offer (List.mem_append_left _ hoffer)
      unfold restoreLoop
      simp only
      split
      · rename_i hend
        refine ⟨more, hnext, fun tx htx ↦ ?_⟩
        rcases hend with hlength | hempty
        · obtain ⟨hsame, hrefused⟩ := hstuck hlength
          rw [hsame]
          exact Or.inr (hrefused tx htx)
        · refine Or.inl ((hall tx htx).resolve_left ?_)
          rw [List.isEmpty_iff.mp hempty]
          exact List.not_mem_nil
      · rename_i hmore
        rw [if_neg hmore] at hlimits
        have hremaining := restorePass_remaining chainUtxo pending current
        have hless : (restorePass chainUtxo pending current).1.length < pending.length :=
          lt_of_le_of_ne hremaining.length_le fun heq ↦ hmore (Or.inl heq)
        obtain ⟨later, hdone, hrest⟩ :=
          ih hnext (List.Subset.trans hremaining.subset hpending) (by omega)
            fun offer hoffer ↦ hlimits offer (List.mem_append_right _ hoffer)
        refine ⟨more ++ later, by rwa [← List.append_assoc], fun tx htx ↦ ?_⟩
        rcases hall tx htx with hkept | hadmitted
        · exact (hrest tx hkept).imp_left (List.mem_append_right _)
        · exact Or.inl (List.mem_append_left _ hadmitted)

/-- Below the limits, restoring admits candidates that can be admitted, and the pool that it
leaves refuses every candidate. -/
theorem restoreCandidates_spec (h : Sound pool)
    (hlimits : RestoresBelowLimits pool candidates chainUtxo) :
    ∃ added, Restoring pool (pool.restoreCandidates candidates chainUtxo) chainUtxo candidates
        added ∧
      ∀ tx ∈ candidates, ∃ e,
        (pool.restoreCandidates candidates chainUtxo).validateCandidate tx chainUtxo =
          .error e := by
  obtain ⟨added, hdone, hall⟩ := (Restoring.start h).loop (candidates.length + 1) h
    (List.Subset.refl candidates) (Nat.lt_succ_self _) hlimits
  rw [List.nil_append] at hdone
  refine ⟨added, hdone, fun tx htx ↦ ?_⟩
  rcases hall tx htx with hadded | hrefused
  · refine validateCandidate_error_iff.mpr fun hfound ↦ ?_
    have hfresh := (validateCandidate_ok_iff.mp hfound).1
    refine hdone.sound.lookup_none_iff.mp hfresh tx ?_ rfl
    rw [hdone.transactions]
    exact List.mem_append_right _ hadded
  · exact hrefused

/-! ## Independence of the order -/

/-- Candidates that spend different outpoints are all admitted, if they can be, by a pool that
refuses the rest. -/
theorem Restoring.mem_added (h : Restoring pool current chainUtxo candidates added)
    {confirmed : Set Transaction} (hcreated : chainUtxo.CreatedBy confirmed)
    (hinj : Set.InjOn Transaction.txid (confirmed ∪ {tx | tx ∈ pool.transactions ++ candidates}))
    (hdisjoint : ∀ tx ∈ candidates, ∀ tx' ∈ candidates, tx ≠ tx' →
      (tx.inputs.map TxInput.outPoint).Disjoint (tx'.inputs.map TxInput.outPoint))
    (hpool : Sound pool)
    (hrefused : ∀ tx ∈ candidates, ∃ e, current.validateCandidate tx chainUtxo = .error e)
    (htx : Admissible pool chainUtxo candidates tx) : tx ∈ added := by
  have hadded : added ⊆ candidates := fun other hother ↦ (h.admissible other hother).mem
  have hresidents : current.transactions ⊆ pool.transactions ++ candidates := by
    rw [h.transactions]
    exact List.append_subset.mpr ⟨List.subset_append_left _ _,
      List.Subset.trans hadded (List.subset_append_right _ _)⟩
  induction htx with
  | @step found tx _ htx hfresh hunspent hvalid ih =>
      by_contra hnew
      have hmem : tx ∈ confirmed ∪ {tx | tx ∈ pool.transactions ++ candidates} :=
        Or.inr (List.mem_append_right _ htx)
      -- Neither a resident of the first pool nor a candidate admitted since spends its inputs.
      have hfree : ∀ input ∈ tx.inputs, current.spends.lookup input.outPoint = none := by
        intro input hinput
        refine h.sound.spends_none_iff.mpr fun other hother ↦ ?_
        rw [h.transactions] at hother
        rcases List.mem_append.mp hother with hold | hother
        · exact hpool.spends_none_iff.mp (hunspent input hinput) other hold
        · have hne : tx ≠ other := fun heq ↦ hnew (heq ▸ hother)
          exact hdisjoint tx htx other (hadded hother) hne (List.mem_map_of_mem hinput)
      have honce : ∀ outpoint, chainUtxo.SuppliesOnce current.transactions outpoint :=
        fun outpoint ↦ (hcreated.suppliesOnce hinj outpoint).anti hresidents
      refine validateCandidate_error_iff.mp (hrefused tx htx) (validateCandidate_ok_iff.mpr
        ⟨?_, hfree, isValidForView_mono hvalid ?_⟩)
      · refine h.sound.lookup_none_iff.mpr fun other hother htxid ↦ ?_
        obtain rfl := hinj (Or.inr (hresidents hother)) hmem htxid
        rw [h.transactions] at hother
        rcases List.mem_append.mp hother with hold | hother
        · exact hpool.lookup_none_iff.mp hfresh other hold rfl
        · exact hnew hother
      · intro input hinput entry hentry
        have hsub : pool.transactions ++ found ⊆ current.transactions := by
          rw [h.transactions]
          exact List.append_subset.mpr ⟨List.subset_append_left _ _,
            fun other hother ↦ List.mem_append_right _ (ih other hother)⟩
        have hspent : ∀ other ∈ pool.transactions ++ found,
            input.outPoint ∉ other.spentOutPoints := fun other hother hspent ↦
          h.sound.spends_none_iff.mp (hfree input hinput) other (hsub hother)
            (Transaction.mem_spentOutPoints hspent)
        have hsupplied := (UtxoSet.lookup_applyTransactions_iff hspent
          ((honce input.outPoint).anti hsub)).mp hentry
        exact (h.sound.lookup_view_iff (hfree input hinput) (honce input.outPoint)).mpr
          (hsupplied.mono hsub)

/-- The restored pool holds the residents and all candidates that can be admitted. -/
theorem getTransaction_restoreCandidates_iff {confirmed : Set Transaction} (h : Sound pool)
    (hcreated : chainUtxo.CreatedBy confirmed)
    (hinj : Set.InjOn Transaction.txid (confirmed ∪ {tx | tx ∈ pool.transactions ++ candidates}))
    (hdisjoint : ∀ tx ∈ candidates, ∀ tx' ∈ candidates, tx ≠ tx' →
      (tx.inputs.map TxInput.outPoint).Disjoint (tx'.inputs.map TxInput.outPoint))
    (hlimits : RestoresBelowLimits pool candidates chainUtxo) {txid : Hash256} :
    (pool.restoreCandidates candidates chainUtxo).getTransaction txid = some tx ↔
      (tx ∈ pool.transactions ∨ Admissible pool chainUtxo candidates tx) ∧ tx.txid = txid := by
  obtain ⟨added, hdone, hrefused⟩ := restoreCandidates_spec h hlimits
  rw [hdone.sound.getTransaction_iff, hdone.transactions, List.mem_append]
  refine and_congr_left fun _ ↦ or_congr_right ⟨hdone.admissible tx, ?_⟩
  exact hdone.mem_added hcreated hinj hdisjoint h hrefused

/-- Below the limits, candidates that spend different outpoints are restored alike in any order,
and the pool then refuses each of them. -/
theorem restoreCandidates_perm (hreached : Reached pool) (confirmed : Set Transaction)
    (hcreated : chainUtxo.CreatedBy confirmed)
    (hinj : Set.InjOn Transaction.txid (confirmed ∪ {tx | tx ∈ pool.transactions ++ candidates}))
    (hdisjoint : ∀ tx ∈ candidates, ∀ tx' ∈ candidates, tx ≠ tx' →
      (tx.inputs.map TxInput.outPoint).Disjoint (tx'.inputs.map TxInput.outPoint))
    {candidates' : List Transaction} (hperm : candidates.Perm candidates')
    (hlimits : RestoresBelowLimits pool candidates chainUtxo)
    (hlimits' : RestoresBelowLimits pool candidates' chainUtxo) :
    (∀ txid, (pool.restoreCandidates candidates chainUtxo).getTransaction txid =
      (pool.restoreCandidates candidates' chainUtxo).getTransaction txid) ∧
    ∀ tx ∈ candidates, ∃ e,
      (pool.restoreCandidates candidates chainUtxo).acceptTx tx chainUtxo =
        (.error e, pool.restoreCandidates candidates chainUtxo) := by
  have hsound := hreached.sound
  constructor
  · intro txid
    refine Option.ext fun tx ↦ ?_
    have hsame : ∀ tx, tx ∈ candidates' ↔ tx ∈ candidates := fun tx ↦ hperm.mem_iff.symm
    have hinj' : Set.InjOn Transaction.txid
        (confirmed ∪ {tx | tx ∈ pool.transactions ++ candidates'}) := by
      simpa only [List.mem_append, hsame] using hinj
    simp only [← hsame] at hdisjoint
    rw [getTransaction_restoreCandidates_iff hsound hcreated hinj
        (by simpa only [hsame] using hdisjoint) hlimits,
      getTransaction_restoreCandidates_iff hsound hcreated hinj' hdisjoint hlimits']
    exact and_congr_left fun _ ↦ or_congr_right
      ⟨Admissible.subset hperm.subset, Admissible.subset hperm.symm.subset⟩
  · intro tx htx
    obtain ⟨-, -, hrefused⟩ := restoreCandidates_spec hsound hlimits
    obtain ⟨e, hrefused⟩ := hrefused tx htx
    exact ⟨e, by rw [Mempool.acceptTx, hrefused]⟩

end Mempool

end Bitrst

namespace Bitrst.Sample

/-- A child that is offered before its parent is restored with it. -/
theorem family_restored :
    (∀ txid, ((Mempool.new ⟨10, 1000⟩).restoreCandidates [childTx, parentTx]
        start.utxo).getTransaction txid =
      ((Mempool.new ⟨10, 1000⟩).restoreCandidates [parentTx, childTx]
        start.utxo).getTransaction txid) ∧
    ∀ tx ∈ [childTx, parentTx], ∃ e,
      ((Mempool.new ⟨10, 1000⟩).restoreCandidates [childTx, parentTx] start.utxo).acceptTx tx
          start.utxo =
        (.error e, (Mempool.new ⟨10, 1000⟩).restoreCandidates [childTx, parentTx] start.utxo) := by
  have hchecks : (∀ tx ∈ [childTx, parentTx], ∀ tx' ∈ [childTx, parentTx], tx ≠ tx' →
        ∀ outpoint ∈ tx.inputs.map TxInput.outPoint,
          outpoint ∉ tx'.inputs.map TxInput.outPoint) ∧
      (∀ offer ∈ Mempool.loopOffers start.utxo 3 [childTx, parentTx] (Mempool.new ⟨10, 1000⟩),
        ¬ offer.1.wouldExceedLimits offer.2.serializedSize) ∧
      ∀ offer ∈ Mempool.loopOffers start.utxo 3 [parentTx, childTx] (Mempool.new ⟨10, 1000⟩),
        ¬ offer.1.wouldExceedLimits offer.2.serializedSize := by
    decide +kernel
  obtain ⟨hdisjoint, hlimits, hlimits'⟩ := hchecks
  exact Mempool.restoreCandidates_perm ⟨_, [], rfl⟩ _ start_createdBy
    (txid_injOn_family (List.Subset.refl _))
    (fun tx htx tx' htx' hne outpoint ↦ hdisjoint tx htx tx' htx' hne outpoint)
    (List.Perm.swap _ _ _) hlimits hlimits'

end Bitrst.Sample
