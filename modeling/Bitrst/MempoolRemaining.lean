import Bitrst.MempoolRestoration
import Bitrst.MempoolRevalidation

/-!
# What a change of the chain leaves of the pool

The residents of a synchronised pool are confirmed nowhere, and each spends from
earlier ones or from the chain.  After a change of the chain the connected blocks
affect some of them, and of the others stay those that are still valid behind one
another: `Synchronised.mem_remaining_iff_stays`.
-/

namespace Bitrst

open Support

variable [Crypto]

namespace Mempool

variable {chain₀ chain : Chain} {chainUtxo : UtxoSet} {pool current : Mempool}
  {blocks : List Block} {found : List Transaction} {tx parent : Transaction}

/-! ## What a pool admits -/

/-- The other transaction has another id and spends nothing that the transaction spends. -/
def Apart (tx other : Transaction) : Prop :=
  other.txid ≠ tx.txid ∧
    ∀ input ∈ tx.inputs, input.outPoint ∉ other.inputs.map TxInput.outPoint

/-- A pool admits what stands apart from its residents and is valid behind them. -/
theorem Sound.admits_iff (h : Sound pool) :
    (∃ found, pool.validateCandidate tx chainUtxo = .ok found) ↔
      (∀ other ∈ pool.transactions, Apart tx other) ∧
        isValidForView tx (chainUtxo.applyTransactions pool.transactions) = true := by
  rw [validateCandidate_ok_iff, h.lookup_none_iff, ← and_assoc]
  refine and_congr_left fun _ ↦ ?_
  simp only [h.spends_none_iff]
  constructor
  · rintro ⟨hfresh, hunspent⟩ other hother
    exact ⟨hfresh other hother, fun input hinput ↦ hunspent input hinput other hother⟩
  · intro hapart
    exact ⟨fun other hother ↦ (hapart other hother).1,
      fun input hinput other hother ↦ (hapart other hother).2 input hinput⟩

/-! ## Residents behind their parents -/

/-- No block of the chain has a transaction with the id of a resident. -/
def Unconfirmed (pool : Mempool) (chain : Chain) : Prop :=
  ∀ tx ∈ pool.transactions, ∀ b ∈ chain.blocks, ∀ confirmed ∈ b.transactions,
    confirmed.txid ≠ tx.txid

theorem Synchronised.none_confirmed (h : Synchronised pool chain) : Unconfirmed pool chain := by
  intro tx htx b hb confirmed hconfirmed
  obtain ⟨entry, hentry, -⟩ :=
    Option.map_eq_some_iff.mp (h.sound.mem_transactions_iff.mp htx)
  exact h.unconfirmed tx.txid entry hentry b hb confirmed hconfirmed

/-- No resident has an output that is unspent on the chain. -/
theorem Unconfirmed.txid_ne (h : Unconfirmed pool chain) (hbacked : chain.Backed)
    {outpoint : OutPoint} (hunspent : (chain.utxo.lookup outpoint).isSome)
    (htx : tx ∈ pool.transactions) : outpoint.txid ≠ tx.txid := by
  obtain ⟨b, hb, creator, hcreator, htxid⟩ := hbacked.confirmed hunspent
  exact htxid ▸ h tx htx b hb creator hcreator

theorem Unconfirmed.suppliesOnce (h : Unconfirmed pool chain) (hsound : Sound pool)
    (hbacked : chain.Backed) (outpoint : OutPoint) :
    chain.utxo.SuppliesOnce pool.transactions outpoint := by
  have hapart : ∀ {entry tx entry'}, chain.utxo.lookup outpoint = some entry →
      tx ∈ pool.transactions → tx.outputAt outpoint = some entry' → False :=
    fun hentry htx houtput ↦ h.txid_ne hbacked (Option.isSome_of_mem hentry) htx
      (Transaction.hasOutput_of_outputAt houtput).txid_eq
  rintro entry entry' (hentry | ⟨tx, htx, houtput⟩) (hentry' | ⟨tx', htx', houtput'⟩)
  · rw [hentry] at hentry'
    exact Option.some.inj hentry'
  · exact (hapart hentry htx' houtput').elim
  · exact (hapart hentry' htx houtput).elim
  · obtain rfl := hsound.txid_inj htx htx'
      ((Transaction.hasOutput_of_outputAt houtput).txid_eq.symm.trans
        (Transaction.hasOutput_of_outputAt houtput').txid_eq)
    rw [houtput] at houtput'
    exact Option.some.inj houtput'

theorem Affected.of_parent (haffected : Affected pool blocks parent.txid) (h : Sound pool)
    (htx : tx ∈ pool.transactions) (hspends : SpendsFrom tx parent) :
    Affected pool blocks tx.txid := by
  obtain ⟨input, hinput, houtput⟩ := hspends
  obtain ⟨entry, hentry, rfl⟩ := Option.map_eq_some_iff.mp (h.mem_transactions_iff.mp htx)
  have htxid : input.previousOutput = parent.txid := houtput.txid_eq
  exact .descends hentry hinput (htxid ▸ haffected)

/-- A resident is valid behind some others when these include the residents it spends from. -/
theorem Synchronised.valid_behind_iff (h : Synchronised pool chain) (hbacked : chain.Backed)
    (htx : tx ∈ pool.transactions) (hfound : found ⊆ pool.transactions) (hnot : tx ∉ found) :
    isValidForView tx (chain.utxo.applyTransactions found) = true ↔
      ∀ parent ∈ pool.transactions, SpendsFrom tx parent → parent ∈ found := by
  constructor
  · rintro hvalid parent hparent ⟨input, hinput, hspent⟩
    obtain ⟨value, hvalue⟩ :=
      Option.isSome_iff_exists.mp ((isValidForView_inputs hvalid).2 input hinput)
    rcases UtxoSet.supplies_of_lookup hvalue with hunspent | ⟨creator, hcreator, houtput⟩
    · exact (h.none_confirmed.txid_ne hbacked (Option.isSome_of_mem hunspent) hparent
        hspent.txid_eq).elim
    · obtain rfl := h.sound.txid_inj hparent (hfound hcreator)
        (hspent.txid_eq.symm.trans (Transaction.hasOutput_of_outputAt houtput).txid_eq)
      exact hcreator
  · intro hparents
    obtain ⟨entry, hentry, rfl⟩ := List.mem_map.mp htx
    obtain ⟨before, after, hsplit, hvalid⟩ := exists_valid_split h.valid hentry
    have hbefore : before ⊆ pool.ordered := by
      rw [hsplit]
      exact List.subset_append_left _ _
    exact h.sound.valid_behind_parents htx hfound hnot
      (h.none_confirmed.suppliesOnce h.sound hbacked) hvalid
      fun parent hparent ↦ hparents parent (List.map_subset _ hbefore hparent)

/-- What a resident spends from was admitted before it. -/
theorem Synchronised.seq_lt_of_spendsFrom (h : Synchronised pool chain) (hbacked : chain.Backed)
    {entry other : MempoolEntry} (hentry : entry ∈ pool.ordered) (hother : other ∈ pool.ordered)
    (hspends : SpendsFrom entry.tx other.tx) : other.seq < entry.seq := by
  obtain ⟨input, hinput, houtput⟩ := hspends
  have hlookup := h.sound.mem_ordered_iff.mp hentry
  rcases h.sound.closed_of_valid h.valid _ entry hlookup input hinput with
    hunspent | ⟨parent, hparent, hseq, -⟩
  · exact (h.none_confirmed.txid_ne hbacked hunspent (List.mem_map_of_mem hother)
      houtput.txid_eq).elim
  · have htxid : input.previousOutput = other.tx.txid := houtput.txid_eq
    rw [htxid, h.sound.mem_ordered_iff.mp hother] at hparent
    rwa [Option.some.inj hparent]

/-! ## What stays -/

/-- The resident is not affected by the blocks, and valid behind residents that stay. -/
inductive Stays (pool : Mempool) (blocks : List Block) (chainUtxo : UtxoSet) : Transaction → Prop
  | step {found : List Transaction} {tx : Transaction}
      (hfound : ∀ other ∈ found, Stays pool blocks chainUtxo other)
      (hresident : tx ∈ pool.transactions) (hunaffected : ¬ Affected pool blocks tx.txid)
      (hvalid : isValidForView tx (chainUtxo.applyTransactions found) = true) :
      Stays pool blocks chainUtxo tx

theorem Stays.resident (h : Stays pool blocks chainUtxo tx) : tx ∈ pool.transactions := by
  cases h with
  | step _ hresident _ _ => exact hresident

theorem Stays.unaffected (h : Stays pool blocks chainUtxo tx) :
    ¬ Affected pool blocks tx.txid := by
  cases h with
  | step _ _ hunaffected _ => exact hunaffected

theorem remaining_sound (h : Sound pool) : Sound (pool.remaining blocks chainUtxo) := by
  obtain ⟨⟨txids, hrevalidated⟩, -⟩ :=
    revalidatePool_spec (h.removeEntries (removedForAll blocks pool)) chainUtxo
  rw [remaining, foldl_removeForBlock, hrevalidated]
  exact (h.removeEntries _).removeEntries txids

theorem remaining_valid (h : Sound pool) :
    (pool.remaining blocks chainUtxo).findInvalidTxids chainUtxo = [] := by
  rw [remaining, foldl_removeForBlock]
  exact (revalidatePool_spec (h.removeEntries (removedForAll blocks pool)) chainUtxo).2

/-- The residents that remain are valid behind those of them that come before. -/
theorem stays_of_remaining (h : Sound pool)
    (htx : tx ∈ (pool.remaining blocks chainUtxo).transactions) :
    Stays pool blocks chainUtxo tx := by
  have hsound : Sound (pool.remaining blocks chainUtxo) := remaining_sound h
  have hall : ∀ n, ∀ entry ∈ (pool.remaining blocks chainUtxo).ordered, entry.seq = n →
      Stays pool blocks chainUtxo entry.tx := by
    intro n
    induction n using Nat.strong_induction_on with
    | _ n ih =>
        rintro entry hentry rfl
        obtain ⟨before, after, hsplit, hvalid⟩ := exists_valid_split (remaining_valid h) hentry
        obtain ⟨hresident, hunaffected⟩ := remaining_entry h (hsound.mem_ordered_iff.mp hentry)
        refine .step (fun other hother ↦ ?_)
          (List.mem_map_of_mem (h.mem_ordered_iff.mpr hresident)) hunaffected hvalid
        obtain ⟨found, hfound, rfl⟩ := List.mem_map.mp hother
        refine ih _ (hsound.seq_lt_of_split hsplit found hfound) found ?_ rfl
        rw [hsplit]
        exact List.mem_append_left _ hfound
  obtain ⟨entry, hentry, rfl⟩ := List.mem_map.mp htx
  exact hall entry.seq entry hentry rfl

/-- Of a pool that was synchronised remains what stays, when the blocks include all that the chain
has now and had not then. -/
theorem Synchronised.mem_remaining_iff_stays (h : Synchronised pool chain₀)
    (hbacked₀ : chain₀.Backed) (hbacked : chain.Backed)
    (hblocks : ∀ b ∈ chain.blocks, b ∈ chain₀.blocks ∨ b ∈ blocks) :
    tx ∈ (pool.remaining blocks chain.utxo).transactions ↔
      Stays pool blocks chain.utxo tx := by
  refine ⟨stays_of_remaining h.sound, fun hstays ↦ ?_⟩
  classical
  let kept := pool.removeEntries (removedForAll blocks pool)
  have hsound : Sound kept := h.sound.removeEntries _
  have hkept : ∀ entry, entry ∈ kept.ordered ↔
      entry ∈ pool.ordered ∧ ¬ Affected pool blocks entry.tx.txid := by
    intro entry
    rw [hsound.mem_ordered_iff, h.sound.mem_ordered_iff, lookup_removeEntries_iff,
      mem_removedForAll_iff, and_comm]
  have hsub : kept.ordered ⊆ pool.ordered := fun entry hentry ↦ ((hkept entry).mp hentry).1
  have hentries : ∀ {tx}, Stays pool blocks chain.utxo tx →
      ∃ entry ∈ kept.ordered, entry.tx = tx := by
    intro tx hstays
    obtain ⟨entry, hentry, rfl⟩ := List.mem_map.mp hstays.resident
    exact ⟨entry, (hkept entry).mpr ⟨hentry, hstays.unaffected⟩, rfl⟩
  have hunconfirmed : Unconfirmed kept chain := by
    rintro _ hmem b hb confirmed hconfirmed heq
    obtain ⟨entry, hentry, rfl⟩ := List.mem_map.mp hmem
    obtain ⟨hentry, hunaffected⟩ := (hkept entry).mp hentry
    rcases hblocks b hb with hold | hnew
    · exact h.none_confirmed _ (List.mem_map_of_mem hentry) b hold confirmed hconfirmed heq
    · exact hunaffected (heq ▸ .confirmed hnew hconfirmed)
  let core := kept.txids.toFinset.filter fun txid ↦
    ∃ tx, Stays pool blocks chain.utxo tx ∧ tx.txid = txid
  have hmem : ∀ entry ∈ kept.ordered, Stays pool blocks chain.utxo entry.tx →
      entry.tx.txid ∈ core := fun entry hentry hstays ↦
    Finset.mem_filter.mpr ⟨List.mem_toFinset.mpr
      (mem_txids.mpr ⟨entry, hsound.mem_ordered_iff.mp hentry⟩), entry.tx, hstays, rfl⟩
  have hcore : ValidCore kept chain.utxo core := by
    intro txid htxid
    obtain ⟨-, tx, hstays, rfl⟩ := Finset.mem_filter.mp htxid
    obtain ⟨entry, hentry, rfl⟩ := hentries hstays
    refine ⟨entry, hsound.mem_ordered_iff.mp hentry, ?_⟩
    have hbefore : kept.coreBefore core entry.seq ⊆ kept.ordered := List.filter_sublist.subset
    cases hstays with
    | @step found _ hfound _ _ hvalid =>
        refine hsound.valid_behind_parents (List.mem_map_of_mem hentry)
          (List.map_subset _ hbefore) (hsound.tx_notMem_map hentry hbefore
            fun hself ↦ lt_irrefl _ (hsound.mem_coreBefore.mp hself).2.2)
          (hunconfirmed.suppliesOnce hsound hbacked) hvalid fun parent hparent hspends ↦ ?_
        obtain ⟨other, hother, rfl⟩ := hentries (hfound parent hparent)
        exact List.mem_map_of_mem (hsound.mem_coreBefore.mpr
          ⟨hsound.mem_ordered_iff.mp hother, hmem other hother (hfound _ hparent),
            h.seq_lt_of_spendsFrom hbacked₀ (hsub hentry) (hsub hother) hspends⟩)
  obtain ⟨entry, hentry, rfl⟩ := hentries hstays
  have hstay : (pool.remaining blocks chain.utxo).entries.lookup entry.tx.txid = some entry := by
    rw [remaining, foldl_removeForBlock]
    exact revalidatePool_keeps_core hsound (hunconfirmed.suppliesOnce hsound hbacked) hcore
      (hmem entry hentry hstays) (hsound.mem_ordered_iff.mp hentry)
  exact List.mem_map_of_mem ((remaining_sound h.sound).mem_ordered_iff.mpr hstay)

/-- Of a pool that is synchronised with the chain remains what the blocks do not affect. -/
theorem Synchronised.mem_remaining_iff (h : Synchronised pool chain) (hbacked : chain.Backed) :
    tx ∈ (pool.remaining blocks chain.utxo).transactions ↔
      tx ∈ pool.transactions ∧ ¬ Affected pool blocks tx.txid := by
  rw [h.mem_remaining_iff_stays hbacked hbacked fun b hb ↦ Or.inl hb]
  refine ⟨fun hstays ↦ ⟨hstays.resident, hstays.unaffected⟩, ?_⟩
  rintro ⟨htx, hunaffected⟩
  classical
  obtain ⟨entry, hentry, rfl⟩ := List.mem_map.mp htx
  clear htx
  -- The residents that it spends from were admitted before it, and are not affected either.
  induction hseq : entry.seq using Nat.strong_induction_on generalizing entry with
  | _ n ih =>
      subst hseq
      have htx : entry.tx ∈ pool.transactions := List.mem_map_of_mem hentry
      let parents := pool.transactions.filter fun parent ↦ SpendsFrom entry.tx parent
      have hparents : ∀ {parent}, parent ∈ parents ↔
          parent ∈ pool.transactions ∧ SpendsFrom entry.tx parent := by
        simp [parents]
      have hself : entry.tx ∉ parents := fun hmem ↦ lt_irrefl _
        (h.seq_lt_of_spendsFrom hbacked hentry hentry (hparents.mp hmem).2)
      refine .step (fun other hother ↦ ?_) htx hunaffected
        ((h.valid_behind_iff hbacked htx (fun other hother ↦ (hparents.mp hother).1) hself).mpr
          fun parent hparent hspends ↦ hparents.mpr ⟨hparent, hspends⟩)
      obtain ⟨hmem, hspends⟩ := hparents.mp hother
      obtain ⟨parent, hparent, rfl⟩ := List.mem_map.mp hmem
      exact ih _ (h.seq_lt_of_spendsFrom hbacked hentry hparent hspends) parent hparent
        (fun haffected ↦ hunaffected (haffected.of_parent h.sound htx hspends)) rfl

end Mempool

end Bitrst
