import Bitrst.MempoolViews

/-!
# Revalidating keeps the valid core

A pass over the residents in the order of their admission sorts out those that
are invalid on the view that the valid ones before them leave.  Residents do not
spend the same outpoint, so one that is kept never takes anything from another:
every set of residents that is valid by itself, in order, is kept as a whole.
-/

namespace Bitrst

open Support

variable [Crypto]

namespace Mempool

variable {pool current : Mempool} {chainUtxo : UtxoSet} {core : Finset Hash256}
  {entry : MempoolEntry} {done rest : List MempoolEntry}

/-- The entries of the set that were admitted before a sequence number. -/
def coreBefore (pool : Mempool) (core : Finset Hash256) (seq : ℕ) : List MempoolEntry :=
  pool.ordered.filter fun entry ↦ decide (entry.tx.txid ∈ core ∧ entry.seq < seq)

/-- The set is one of entries, and each is valid on the view that those of the set before it
leave. -/
def ValidCore (pool : Mempool) (chainUtxo : UtxoSet) (core : Finset Hash256) : Prop :=
  ∀ txid ∈ core, ∃ entry, pool.entries.lookup txid = some entry ∧
    isValidForView entry.tx (chainUtxo.applyTransactions
      ((pool.coreBefore core entry.seq).map MempoolEntry.tx)) = true

omit [Crypto] in
theorem mem_txids {txid : Hash256} :
    txid ∈ pool.txids ↔ ∃ entry, pool.entries.lookup txid = some entry := by
  exact AList.lookup_isSome.symm.trans Option.isSome_iff_exists

theorem Sound.mem_ordered_iff (h : Sound pool) :
    entry ∈ pool.ordered ↔ pool.entries.lookup entry.tx.txid = some entry := by
  rw [mem_ordered]
  constructor
  · rintro ⟨txid, hentry⟩
    rwa [h.key txid entry hentry]
  · exact fun hentry ↦ ⟨_, hentry⟩

theorem Sound.mem_coreBefore (h : Sound pool) {seq : ℕ} :
    entry ∈ pool.coreBefore core seq ↔
      pool.entries.lookup entry.tx.txid = some entry ∧ entry.tx.txid ∈ core ∧ entry.seq < seq := by
  rw [coreBefore, List.mem_filter, h.mem_ordered_iff, decide_eq_true_iff]

/-- The entries come by increasing sequence numbers. -/
theorem Sound.ordered_sorted (h : Sound pool) :
    pool.ordered.Pairwise fun left right ↦ left.seq < right.seq := by
  have hsorted : pool.ordered.Pairwise fun left right ↦ left.seq ≤ right.seq :=
    List.pairwise_insertionSort (fun left right : MempoolEntry ↦ left.seq ≤ right.seq) _
  apply (hsorted.and (ordered_nodup h)).imp_of_mem
  rintro left right hleft hright ⟨hle, hne⟩
  rw [h.mem_ordered_iff] at hleft hright
  refine lt_of_le_of_ne hle fun heq ↦ hne ?_
  have htxid := h.seq_inj _ _ _ _ hleft hright heq
  rw [htxid, hright] at hleft
  exact (Option.some.inj hleft).symm

theorem Sound.txid_inj (h : Sound pool) {tx tx' : Transaction} (htx : tx ∈ pool.transactions)
    (htx' : tx' ∈ pool.transactions) (heq : tx.txid = tx'.txid) : tx = tx' := by
  have hfound := h.mem_transactions_iff.mp htx
  rw [heq, h.mem_transactions_iff.mp htx'] at hfound
  exact (Option.some.inj hfound).symm

theorem Sound.entry_inj (h : Sound pool) {other : MempoolEntry} (hentry : entry ∈ pool.ordered)
    (hother : other ∈ pool.ordered) (heq : other.tx.txid = entry.tx.txid) : other = entry := by
  have hlookup := h.mem_ordered_iff.mp hother
  rw [heq, h.mem_ordered_iff.mp hentry] at hlookup
  exact (Option.some.inj hlookup).symm

theorem Sound.tx_notMem_map (h : Sound pool) (hentry : entry ∈ pool.ordered)
    (hdone : done ⊆ pool.ordered) (hnot : entry ∉ done) : entry.tx ∉ done.map MempoolEntry.tx := by
  intro hmem
  obtain ⟨other, hother, heq⟩ := List.mem_map.mp hmem
  exact hnot (h.entry_inj hentry (hdone hother) (congrArg Transaction.txid heq) ▸ hother)

/-! ## Views of residents that do not spend the same -/

/-- The transaction spends an output of the other. -/
def SpendsFrom (tx parent : Transaction) : Prop :=
  ∃ input ∈ tx.inputs, parent.HasOutput input.outPoint

/-- A resident that is valid behind some transactions is valid behind other residents, when these
include all of the former that it spends from. -/
theorem Sound.valid_behind_parents (h : Sound pool) {tx : Transaction}
    {found more : List Transaction} (htx : tx ∈ pool.transactions)
    (hmore : more ⊆ pool.transactions) (hnot : tx ∉ more)
    (honce : ∀ outpoint, chainUtxo.SuppliesOnce pool.transactions outpoint)
    (hvalid : isValidForView tx (chainUtxo.applyTransactions found) = true)
    (hparents : ∀ parent ∈ found, SpendsFrom tx parent → parent ∈ more) :
    isValidForView tx (chainUtxo.applyTransactions more) = true := by
  refine isValidForView_mono hvalid fun input hinput value hvalue ↦ ?_
  have hunspent : ∀ other ∈ more, input.outPoint ∉ other.spentOutPoints := fun other hother hspent ↦
    hnot (h.spender_unique (hmore hother) htx (Transaction.mem_spentOutPoints hspent)
      (List.mem_map_of_mem hinput) ▸ hother)
  refine (UtxoSet.lookup_applyTransactions_iff hunspent ((honce _).anti hmore)).mpr
    ((UtxoSet.supplies_of_lookup hvalue).imp_right ?_)
  rintro ⟨creator, hcreator, houtput⟩
  exact ⟨creator, hparents creator hcreator
    ⟨input, hinput, Transaction.hasOutput_of_outputAt houtput⟩, houtput⟩

/-- An entry that is valid behind some entries is valid behind more of them. -/
theorem Sound.valid_behind (h : Sound pool) {more : List MempoolEntry}
    (hentry : entry ∈ pool.ordered) (hsub : done ⊆ more) (hmore : more ⊆ pool.ordered)
    (hnot : entry ∉ more)
    (honce : ∀ outpoint, chainUtxo.SuppliesOnce pool.transactions outpoint)
    (hvalid : isValidForView entry.tx
      (chainUtxo.applyTransactions (done.map MempoolEntry.tx)) = true) :
    isValidForView entry.tx (chainUtxo.applyTransactions (more.map MempoolEntry.tx)) = true :=
  h.valid_behind_parents (List.mem_map_of_mem hentry) (List.map_subset _ hmore)
    (h.tx_notMem_map hentry hmore hnot) honce hvalid
    fun _ hparent _ ↦ List.map_subset _ hsub hparent

/-! ## One pass -/

/-- No entry of a valid core is found invalid behind entries that include the core so far. -/
theorem notMem_findInvalidLoop_of_core (h : Sound pool)
    (honce : ∀ outpoint, chainUtxo.SuppliesOnce pool.transactions outpoint)
    (hcore : ValidCore pool chainUtxo core) (hordered : done ++ rest ⊆ pool.ordered)
    (hsorted : rest.Pairwise fun left right ↦ left.seq < right.seq)
    (hbelow : ∀ before ∈ done, ∀ entry ∈ rest, before.seq < entry.seq)
    (hall : ∀ entry ∈ pool.ordered, entry.tx.txid ∈ core → entry ∈ done ∨ entry ∈ rest) :
    ∀ txid ∈ core,
      txid ∉ findInvalidLoop rest (chainUtxo.applyTransactions (done.map MempoolEntry.tx)) := by
  induction rest generalizing done with
  | nil => simp [findInvalidLoop]
  | cons entry rest ih =>
      have hentry : entry ∈ pool.ordered := hordered (by simp)
      have hafter := List.pairwise_cons.mp hsorted
      -- The next step, with the entry behind the others.
      have hnext : ∀ txid ∈ core, txid ∉ findInvalidLoop rest
          ((chainUtxo.applyTransactions (done.map MempoolEntry.tx)).applyTransaction entry.tx) := by
        have hview : (chainUtxo.applyTransactions (done.map MempoolEntry.tx)).applyTransaction
            entry.tx = chainUtxo.applyTransactions ((done ++ [entry]).map MempoolEntry.tx) := by
          rw [List.map_append, UtxoSet.applyTransactions_append]
          rfl
        rw [hview]
        refine ih (by simpa using hordered) hafter.2 ?_ ?_
        · intro before hbefore other hother
          rcases List.mem_append.mp hbefore with hbefore | hbefore
          · exact hbelow before hbefore other (List.mem_cons_of_mem _ hother)
          · rw [List.mem_singleton.mp hbefore]
            exact hafter.1 other hother
        · intro other hother hmem
          rcases hall other hother hmem with hdone | hrest
          · exact Or.inl (List.mem_append_left _ hdone)
          · rcases List.mem_cons.mp hrest with rfl | hrest
            · exact Or.inl (List.mem_append_right _ List.mem_cons_self)
            · exact Or.inr hrest
      by_cases hmem : entry.tx.txid ∈ core
      · obtain ⟨found, hfound, hvalid⟩ := hcore _ hmem
        rw [h.mem_ordered_iff.mp hentry] at hfound
        obtain rfl := Option.some.inj hfound
        have hsub : pool.coreBefore core entry.seq ⊆ done := by
          intro before hbefore
          obtain ⟨hlookup, hbeforeCore, hseq⟩ := h.mem_coreBefore.mp hbefore
          rcases hall before (h.mem_ordered_iff.mpr hlookup) hbeforeCore with hdone | hrest
          · exact hdone
          · rcases List.mem_cons.mp hrest with rfl | hrest
            · exact (lt_irrefl _ hseq).elim
            · exact (lt_asymm hseq (hafter.1 before hrest)).elim
        have hdone : done ⊆ pool.ordered := fun before hbefore ↦
          hordered (List.mem_append_left _ hbefore)
        have hnot : entry ∉ done := fun hbefore ↦
          lt_irrefl _ (hbelow entry hbefore entry List.mem_cons_self)
        rw [findInvalidLoop, if_pos (h.valid_behind hentry hsub hdone hnot honce hvalid)]
        exact hnext
      · unfold findInvalidLoop
        split
        · exact hnext
        · intro txid htxid hinvalid
          rcases List.mem_cons.mp hinvalid with rfl | hinvalid
          · exact hmem htxid
          · refine ih (fun other hother ↦ hordered ?_) hafter.2
              (fun before hbefore other hother ↦
                hbelow before hbefore other (List.mem_cons_of_mem _ hother)) ?_ txid htxid hinvalid
            · rcases List.mem_append.mp hother with hdone | hrest
              · exact List.mem_append_left _ hdone
              · exact List.mem_append_right _ (List.mem_cons_of_mem _ hrest)
            · intro other hother hotherCore
              refine (hall other hother hotherCore).imp_right fun hrest ↦ ?_
              rcases List.mem_cons.mp hrest with rfl | hrest
              · exact (hmem hotherCore).elim
              · exact hrest

/-- In a pool without invalid entries each is valid behind those before it. -/
theorem valid_of_findInvalidLoop_nil {before after : List MempoolEntry} {view : UtxoSet}
    (h : findInvalidLoop (before ++ entry :: after) view = []) :
    isValidForView entry.tx (view.applyTransactions (before.map MempoolEntry.tx)) = true := by
  induction before generalizing view with
  | nil =>
      by_contra hinvalid
      change ¬ isValidForView entry.tx view = true at hinvalid
      rw [List.nil_append, findInvalidLoop, if_neg hinvalid] at h
      cases h
  | cons first before ih =>
      rw [List.cons_append, findInvalidLoop] at h
      split at h
      · exact ih h
      · cases h

theorem exists_valid_split (hnone : current.findInvalidTxids chainUtxo = [])
    (hentry : entry ∈ current.ordered) :
    ∃ before after, current.ordered = before ++ entry :: after ∧
      isValidForView entry.tx
        (chainUtxo.applyTransactions (before.map MempoolEntry.tx)) = true := by
  obtain ⟨before, after, hsplit⟩ := List.append_of_mem hentry
  rw [findInvalidTxids, hsplit] at hnone
  exact ⟨before, after, hsplit, valid_of_findInvalidLoop_nil hnone⟩

theorem Sound.seq_lt_of_split (h : Sound pool) {before after : List MempoolEntry}
    (hsplit : pool.ordered = before ++ entry :: after) :
    ∀ other ∈ before, other.seq < entry.seq := by
  have hsorted := h.ordered_sorted
  rw [hsplit] at hsorted
  exact fun other hother ↦
    (List.pairwise_append.mp hsorted).2.2 other hother entry List.mem_cons_self

/-- A pool without invalid entries is closed under its dependencies. -/
theorem Sound.closed_of_valid (h : Sound pool) (hnone : pool.findInvalidTxids chainUtxo = []) :
    Closed chainUtxo pool := by
  intro txid entry hentry input hinput
  obtain ⟨before, after, hsplit, hvalid⟩ :=
    exists_valid_split hnone (mem_ordered.mpr ⟨txid, hentry⟩)
  obtain ⟨value, hvalue⟩ :=
    Option.isSome_iff_exists.mp ((isValidForView_inputs hvalid).2 input hinput)
  rw [UtxoSet.applyTransactions_eq_applyAll] at hvalue
  rcases lookup_applyAll_cases _ _ hvalue with hunspent | ⟨patch, hpatch, hwrite⟩
  · exact Or.inl (Option.isSome_of_mem hunspent)
  · obtain ⟨tx, htx, rfl⟩ := List.mem_map.mp hpatch
    obtain ⟨parent, hparent, rfl⟩ := List.mem_map.mp htx
    have houtput : parent.tx.HasOutput input.outPoint := hwrite
    have hordered : parent ∈ pool.ordered := by
      rw [hsplit]
      exact List.mem_append_left _ hparent
    have htxid : input.previousOutput = parent.tx.txid := houtput.txid_eq
    exact Or.inr ⟨parent, htxid ▸ h.mem_ordered_iff.mp hordered,
      h.seq_lt_of_split hsplit parent hparent, houtput⟩

/-! ## The whole loop -/

/-- What is left is a valid core. -/
theorem ValidCore.of_revalidated (h : Sound pool)
    (honce : ∀ outpoint, chainUtxo.SuppliesOnce pool.transactions outpoint)
    (hcurrent : Sound current)
    (hsub : ∀ txid entry, current.entries.lookup txid = some entry →
      pool.entries.lookup txid = some entry)
    (hnone : current.findInvalidTxids chainUtxo = []) :
    ValidCore pool chainUtxo current.txids.toFinset := by
  intro txid htxid
  obtain ⟨entry, hentry⟩ := mem_txids.mp (List.mem_toFinset.mp htxid)
  obtain ⟨before, after, hsplit, hvalid⟩ :=
    exists_valid_split hnone (mem_ordered.mpr ⟨txid, hentry⟩)
  have hordered : ∀ other, other ∈ current.ordered → other ∈ pool.ordered := fun other hother ↦
    h.mem_ordered_iff.mpr (hsub _ _ (hcurrent.mem_ordered_iff.mp hother))
  refine ⟨entry, hsub txid entry hentry, h.valid_behind (hordered entry ?_) (fun other hother ↦ ?_)
    List.filter_sublist.subset ?_ honce hvalid⟩
  · exact mem_ordered.mpr ⟨txid, hentry⟩
  · have hmem : other ∈ current.ordered := by
      rw [hsplit]
      exact List.mem_append_left _ hother
    have hlookup := hcurrent.mem_ordered_iff.mp hmem
    exact h.mem_coreBefore.mpr ⟨hsub _ _ hlookup,
      List.mem_toFinset.mpr (mem_txids.mpr ⟨other, hlookup⟩),
      hcurrent.seq_lt_of_split hsplit other hother⟩
  · exact fun hmem ↦ lt_irrefl _ (h.mem_coreBefore.mp hmem).2.2

/-- Revalidating keeps the entries of a valid core. -/
theorem revalidatePool_keeps_core (h : Sound pool)
    (honce : ∀ outpoint, chainUtxo.SuppliesOnce pool.transactions outpoint)
    (hcore : ValidCore pool chainUtxo core) {txid : Hash256} (htxid : txid ∈ core)
    (hentry : pool.entries.lookup txid = some entry) :
    (pool.revalidatePool chainUtxo).entries.lookup txid = some entry := by
  refine @revalidateLoop_keeps _ _ _ (· ∈ core) _ h ?_ _ _ htxid hentry
  intro current hcurrent hless hkeeps
  refine @notMem_findInvalidLoop_of_core _ pool chainUtxo core [] current.ordered h honce hcore
    (fun other hother ↦ ?_) hcurrent.ordered_sorted (by simp) fun other hother hmem ↦ Or.inr ?_
  · exact h.mem_ordered_iff.mpr (hless _ _ (hcurrent.mem_ordered_iff.mp hother))
  · exact hcurrent.mem_ordered_iff.mpr (hkeeps _ _ hmem (h.mem_ordered_iff.mp hother))

/-- Revalidating ends and keeps the greatest valid core, with the entries as they were. -/
theorem revalidatePool_greatest (hreached : Reached pool) (confirmed : Set Transaction)
    (hcreated : chainUtxo.CreatedBy confirmed)
    (hinj : Set.InjOn Transaction.txid (confirmed ∪ {tx | tx ∈ pool.transactions})) :
    (pool.revalidatePool chainUtxo).findInvalidTxids chainUtxo = [] ∧
    (∀ txid entry, (pool.revalidatePool chainUtxo).entries.lookup txid = some entry →
      pool.entries.lookup txid = some entry) ∧
    IsGreatest {core | ValidCore pool chainUtxo core}
      (pool.revalidatePool chainUtxo).txids.toFinset := by
  have h := hreached.sound
  have honce := hcreated.suppliesOnce hinj
  obtain ⟨⟨txids, hremoved⟩, hnone⟩ := revalidatePool_spec h chainUtxo
  have hsub : ∀ txid entry, (pool.revalidatePool chainUtxo).entries.lookup txid = some entry →
      pool.entries.lookup txid = some entry := by
    intro txid entry hentry
    rw [hremoved] at hentry
    exact (lookup_removeEntries_iff.mp hentry).2
  refine ⟨hnone, hsub, ?_, fun core hcore txid htxid ↦ ?_⟩
  · exact .of_revalidated h honce (hremoved ▸ h.removeEntries txids) hsub hnone
  · obtain ⟨entry, hentry, -⟩ := hcore txid htxid
    exact List.mem_toFinset.mpr
      (mem_txids.mpr ⟨entry, revalidatePool_keeps_core h honce hcore htxid hentry⟩)

end Mempool

end Bitrst

namespace Bitrst.Sample

/-- With the parent in a block, the parent goes and the child stays. -/
theorem family_core :
    (family.revalidatePool confirmed.utxo).transactions = [childTx] ∧
    (family.revalidatePool confirmed.utxo).findInvalidTxids confirmed.utxo = [] ∧
    (∀ txid entry, (family.revalidatePool confirmed.utxo).entries.lookup txid = some entry →
      family.entries.lookup txid = some entry) ∧
    IsGreatest {core | Mempool.ValidCore family confirmed.utxo core}
      (family.revalidatePool confirmed.utxo).txids.toFinset := by
  refine ⟨by decide +kernel, ?_⟩
  exact Mempool.revalidatePool_greatest family_reached _
    (Chain.Reachable.createdBy confirmed_reachable) txid_injOn_confirmed

end Bitrst.Sample
