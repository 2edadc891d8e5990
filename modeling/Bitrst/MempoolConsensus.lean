import Bitrst.BlockTransactions
import Bitrst.MempoolRuns

/-!
# Admission agrees with the checks of a block

A pool that never reached its limits holds, in the order of admission, a list of
transactions that passes the checks of a block behind any coinbase that has
nothing to do with them.  The pool keeps outpoints apart by its index of spends,
the block by its set of spent outpoints; both check every transaction on the
view that those before it leave.
-/

namespace Bitrst

open Support

variable [Crypto]

/-- The pool's own script loop. -/
theorem verifyScripts_ok_iff {tx : Transaction} {view : UtxoSet} :
    verifyScripts tx view = .ok () ↔ tx.ScriptsPass view := by
  unfold verifyScripts Transaction.ScriptsPass
  cases Chain.prevScripts view tx.inputs with
  | error e => simp
  | ok scripts =>
      simp only [Except.ok.injEq, exists_eq_left']
      cases Chain.verifyInputs tx scripts 0 (tx.inputs.zip scripts) <;> simp

omit [Crypto] in
/-- No input is met twice exactly when the outpoints are distinct and none was seen before. -/
theorem duplicateInput_eq_none_iff {inputs : List TxInput} {seen : List OutPoint} :
    duplicateInput inputs seen = none ↔
      (inputs.map TxInput.outPoint).Nodup ∧
        ∀ outpoint ∈ inputs.map TxInput.outPoint, outpoint ∉ seen := by
  induction inputs generalizing seen with
  | nil => simp [duplicateInput]
  | cons input rest ih =>
      unfold duplicateInput
      split
      · rename_i hseen
        simp only [reduceCtorEq, false_iff]
        rintro ⟨-, hnew⟩
        exact hnew input.outPoint (by simp) hseen
      · rename_i hseen
        rw [ih]
        simp only [List.map_cons, List.nodup_cons, List.mem_cons, not_or, forall_eq_or_imp]
        constructor
        · rintro ⟨hnodup, hnew⟩
          exact ⟨⟨fun hin ↦ (hnew _ hin).1 rfl, hnodup⟩, hseen, fun o ho ↦ (hnew o ho).2⟩
        · rintro ⟨⟨hfirst, hnodup⟩, -, hnew⟩
          exact ⟨hnodup, fun o ho ↦ ⟨fun heq ↦ hfirst (heq ▸ ho), hnew o ho⟩⟩

theorem checkDuplicateInputs_ok {tx : Transaction} (h : checkDuplicateInputs tx = .ok ()) :
    (tx.inputs.map TxInput.outPoint).Nodup := by
  unfold checkDuplicateInputs at h
  cases hfound : duplicateInput tx.inputs [] with
  | none => exact (duplicateInput_eq_none_iff.mp hfound).1
  | some index =>
      simp only [hfound] at h
      cases h

namespace Mempool

variable {pool : Mempool} {chainUtxo : UtxoSet}

/-- A candidate is valid on the view of the pool, and its inputs are distinct. -/
theorem validateCandidate_validOn {tx : Transaction} {fee : UInt64} {candidate : MempoolEntry}
    (h : pool.validateCandidate tx chainUtxo = .ok (fee, candidate)) :
    tx.spentOutPoints.Nodup ∧ tx.ValidOn (pool.buildValidationView chainUtxo) := by
  have hc := validateCandidate_ok h
  have hspent : tx.spentOutPoints = tx.inputs.map TxInput.outPoint := by
    simp [Transaction.spentOutPoints, hc.not_coinbase]
  unfold validateCandidate at h
  split at h
  · cases h
  · split at h
    · cases h
    · split at h
      · cases h
      · split at h
        · cases h
        · rename_i hdistinct
          split at h
          · cases h
          · simp only [hc.valid] at h
            split at h
            · cases h
            · split at h
              · cases h
              · rename_i hscripts
                exact ⟨hspent ▸ checkDuplicateInputs_ok hdistinct, hc.valid,
                  fun _ ↦ verifyScripts_ok_iff.mp hscripts⟩

omit [Crypto] in
theorem orderedInsert_last {entry : MempoolEntry} {entries : List MempoolEntry}
    (h : ∀ other ∈ entries, other.seq < entry.seq) :
    entries.orderedInsert (fun left right ↦ left.seq ≤ right.seq) entry = entries ++ [entry] := by
  induction entries with
  | nil => rfl
  | cons first rest ih =>
      have hfirst := h first List.mem_cons_self
      rw [List.orderedInsert_cons, if_neg (by omega),
        ih fun other hother ↦ h other (List.mem_cons_of_mem _ hother), List.cons_append]

/-- The last admission comes last. -/
theorem Sound.ordered_insertEntry (h : Sound pool) {txid : Hash256} {entry : MempoolEntry}
    (hseq : entry.seq = pool.nextSeq) (hfresh : pool.entries.lookup txid = none) :
    (pool.insertEntry txid entry).ordered = pool.ordered ++ [entry] := by
  have hentries : (pool.insertEntry txid entry).entries.entries =
      ⟨txid, entry⟩ :: pool.entries.entries :=
    AList.entries_insert_of_notMem (AList.lookup_eq_none.mp hfresh)
  unfold ordered
  rw [hentries, List.map_cons, List.insertionSort_cons]
  apply orderedInsert_last
  intro other hother
  obtain ⟨key, hkey⟩ := mem_ordered.mp hother
  rw [hseq]
  exact h.seq_lt key other hkey

/-- What the entries of a pool are as the transactions of a block. -/
structure Minable (chainUtxo : UtxoSet) (pool : Mempool) : Prop where
  sound : Sound pool
  distinct : ((pool.ordered.map MempoolEntry.tx).flatMap Transaction.spentOutPoints).Nodup
  valid : Transaction.AllValidOn (pool.ordered.map MempoolEntry.tx) chainUtxo

theorem new_minable (limits : MempoolLimits) : Minable chainUtxo (new limits) :=
  ⟨new_sound limits, List.nodup_nil, trivial⟩

/-- No recorded spend clashes with what a candidate spends. -/
theorem Candidate.spends_apart {tx : Transaction} {candidate : MempoolEntry}
    (hc : Candidate pool tx chainUtxo candidate) (h : Sound pool) {outpoint : OutPoint}
    (hold : outpoint ∈ (pool.ordered.map MempoolEntry.tx).flatMap Transaction.spentOutPoints) :
    outpoint ∉ tx.spentOutPoints := by
  intro hnew
  obtain ⟨other, hother, hspent⟩ := List.mem_flatMap.mp hold
  obtain ⟨entry, hentry, rfl⟩ := List.mem_map.mp hother
  obtain ⟨key, hkey⟩ := mem_ordered.mp hentry
  have howned := (h.spends_iff outpoint key).mpr
    ⟨entry, hkey, Transaction.mem_spentOutPoints hspent⟩
  obtain ⟨input, hinput, rfl⟩ := List.mem_map.mp (Transaction.mem_spentOutPoints hnew)
  rw [hc.no_conflict input hinput] at howned
  cases howned

theorem Minable.acceptTx (h : Minable chainUtxo pool) {tx : Transaction}
    (hlimits : ¬ pool.wouldExceedLimits tx.serializedSize) :
    Minable chainUtxo (pool.acceptTx tx chainUtxo).2 := by
  have hsound : Sound (pool.acceptTx tx chainUtxo).2 := h.sound.acceptTx tx chainUtxo
  rcases acceptTx_offer hlimits with ⟨e, -, heq⟩ | ⟨fee, candidate, hvalid, heq⟩
  · rwa [heq]
  · have hc := validateCandidate_ok hvalid
    obtain ⟨hnodup, hvalidOn⟩ := validateCandidate_validOn hvalid
    have hordered : (pool.acceptTx tx chainUtxo).2.ordered.map MempoolEntry.tx =
        pool.ordered.map MempoolEntry.tx ++ [tx] := by
      rw [heq, h.sound.ordered_insertEntry hc.seq_eq hc.fresh, List.map_append, List.map_singleton,
        hc.tx_eq]
    refine ⟨hsound, ?_, ?_⟩
    · simp only [hordered, List.flatMap_append, List.flatMap_singleton, List.nodup_append]
      refine ⟨h.distinct, hnodup, ?_⟩
      rintro outpoint hold _ hnew rfl
      exact hc.spends_apart h.sound hold hnew
    · rw [hordered]
      exact Transaction.AllValidOn.append_iff.mpr ⟨h.valid, hvalidOn, trivial⟩

/-- No offer of the run meets a pool without room for it. -/
def NeverFull (limits : MempoolLimits) (chainUtxo : UtxoSet) (txs : List Transaction) : Prop :=
  ∀ (i : ℕ) (hi : i < txs.length),
    ¬ ((new limits).acceptAll chainUtxo (txs.take i)).wouldExceedLimits txs[i].serializedSize

instance (limits : MempoolLimits) (chainUtxo : UtxoSet) (txs : List Transaction) :
    Decidable (NeverFull limits chainUtxo txs) :=
  inferInstanceAs (Decidable (∀ (i : ℕ) (hi : i < txs.length),
    ¬ ((new limits).acceptAll chainUtxo (txs.take i)).wouldExceedLimits txs[i].serializedSize))

/-- What a new pool has and every offer of the run keeps, the pool has at its end. -/
theorem NeverFull.invariant {limits : MempoolLimits} {txs : List Transaction}
    (h : NeverFull limits chainUtxo txs) (holds : Mempool → Prop) (hnew : holds (new limits))
    (hoffer : ∀ (pool : Mempool), ∀ tx ∈ txs, holds pool →
      ¬ pool.wouldExceedLimits tx.serializedSize → holds (pool.acceptTx tx chainUtxo).2) :
    holds ((new limits).acceptAll chainUtxo txs) := by
  have hall : ∀ i, i ≤ txs.length → holds ((new limits).acceptAll chainUtxo (txs.take i)) := by
    intro i
    induction i with
    | zero => exact fun _ ↦ hnew
    | succ i ih =>
        intro hi
        have hnext := hoffer _ txs[i] (List.getElem_mem hi) (ih (Nat.le_of_succ_le hi)) (h i hi)
        rwa [List.take_succ_eq_append_getElem hi, acceptAll, List.foldl_append]
  have hend := hall txs.length (Nat.le_refl _)
  rwa [List.take_length] at hend

theorem acceptAll_minable {limits : MempoolLimits} {txs : List Transaction}
    (hlimits : NeverFull limits chainUtxo txs) :
    Minable chainUtxo ((new limits).acceptAll chainUtxo txs) :=
  hlimits.invariant (Minable chainUtxo) (new_minable limits) fun _ _ _ h ↦ h.acceptTx

/-- What the entries spend is unspent on the chain or an output of an entry. -/
theorem Minable.spent_txid (h : Minable chainUtxo pool) {outpoint : OutPoint}
    (hspent : outpoint ∈ (pool.ordered.map MempoolEntry.tx).flatMap Transaction.spentOutPoints) :
    (chainUtxo.lookup outpoint).isSome ∨ (pool.entries.lookup outpoint.txid).isSome := by
  obtain ⟨tx, htx, hmem⟩ := List.mem_flatMap.mp hspent
  obtain ⟨before, after, hsplit⟩ := List.append_of_mem htx
  have hvalid := h.valid
  rw [hsplit, Transaction.AllValidOn.append_iff] at hvalid
  have hcoinbase : tx.isCoinbase = false := by
    by_contra hcoinbase
    simp only [Transaction.spentOutPoints, Bool.not_eq_false _ ▸ hcoinbase, if_true,
      List.not_mem_nil] at hmem
  obtain ⟨input, hinput, rfl⟩ := List.mem_map.mp (Transaction.mem_spentOutPoints hmem)
  obtain ⟨entry, hentry⟩ := Option.isSome_iff_exists.mp
    (UtxoSet.validateTransaction_inputs hcoinbase hvalid.2.1.1 input hinput)
  rw [UtxoSet.applyTransactions_eq_applyAll] at hentry
  rcases lookup_applyAll_cases _ _ hentry with hchain | ⟨patch, hpatch, hwrite⟩
  · exact Or.inl (by rw [hchain]; rfl)
  · obtain ⟨parent, hparent, rfl⟩ := List.mem_map.mp hpatch
    have houtput : parent.HasOutput input.outPoint := hwrite
    have hresident : parent ∈ pool.ordered.map MempoolEntry.tx := by
      rw [hsplit]
      exact List.mem_append_left _ hparent
    obtain ⟨resident, hordered, rfl⟩ := List.mem_map.mp hresident
    obtain ⟨key, hkey⟩ := mem_ordered.mp hordered
    rw [houtput.txid_eq, h.sound.key key resident hkey, hkey]
    exact Or.inr rfl

/-- The coinbase of a block is unrelated to the unspent outputs and to the pool. -/
structure Unrelated (chainUtxo : UtxoSet) (pool : Mempool) (coinbase : Transaction) : Prop where
  chain : ∀ outpoint, outpoint.txid = coinbase.txid → chainUtxo.lookup outpoint = none
  entries : pool.entries.lookup coinbase.txid = none

/-- Behind an unrelated coinbase whose outputs can be summed, the entries of a pool that was never
full pass the checks of a block in the order of their admission. -/
theorem neverFull_passes (limits : MempoolLimits) (chainUtxo : UtxoSet) (txs : List Transaction)
    (hlimits : NeverFull limits chainUtxo txs) (header : BlockHeader) (coinbase : Transaction)
    (hcoinbase : coinbase.isCoinbase = true) (hsum : outputsValue coinbase.outputs < 2 ^ 64)
    (hunrelated : Unrelated chainUtxo ((new limits).acceptAll chainUtxo txs) coinbase) :
    Chain.validateBlockTransactionsForUtxo
      ⟨header, coinbase :: ((new limits).acceptAll chainUtxo txs).ordered.map MempoolEntry.tx⟩
        chainUtxo = .ok () := by
  have h := acceptAll_minable hlimits
  have hspent : coinbase.spentOutPoints = [] := by simp [Transaction.spentOutPoints, hcoinbase]
  apply Chain.validateBlockTransactionsForUtxo_ok_iff.mpr
  refine ⟨?_, ⟨?_, ?_⟩, h.valid.congr ?_⟩
  · rw [List.flatMap_cons, hspent]
    exact h.distinct
  · exact (UtxoSet.validateTransaction_coinbase_iff hcoinbase).mpr hsum
  · intro hnot
    rw [hcoinbase] at hnot
    cases hnot
  · -- The outputs of the coinbase are no outpoint that an entry spends.
    intro outpoint hout
    have hne : outpoint.txid ≠ coinbase.txid := by
      intro heq
      rcases h.spent_txid hout with hchain | hentry
      · rw [hunrelated.chain outpoint heq] at hchain
        cases hchain
      · rw [heq, hunrelated.entries] at hentry
        cases hentry
    have hwrite : outpoint ∉ coinbase.patch.writes.map Prod.fst := by
      intro hmem
      have houtput : coinbase.HasOutput outpoint := hmem
      exact hne houtput.txid_eq
    rw [UtxoSet.applyTransaction, Patch.lookup_apply_of_notMem _ _ hwrite, if_neg]
    rw [Transaction.patch, hspent]
    exact List.not_mem_nil

end Mempool

end Bitrst

namespace Bitrst.Sample

open Support

/-- A coinbase whose outputs exceed 64 bits. -/
def minting : Transaction :=
  ⟨1, (coin 1).inputs, [⟨0xffffffffffffffff, []⟩, ⟨1, []⟩], 0⟩

/-- Without any offer the block is the coinbase alone, and is refused. -/
theorem minting_refused : ¬ ∀ (limits : MempoolLimits) (chainUtxo : UtxoSet)
    (txs : List Transaction), Mempool.NeverFull limits chainUtxo txs →
      ∀ (header : BlockHeader) (coinbase : Transaction), coinbase.isCoinbase = true →
        Mempool.Unrelated chainUtxo ((Mempool.new limits).acceptAll chainUtxo txs) coinbase →
          Chain.validateBlockTransactionsForUtxo
            ⟨header, coinbase ::
              ((Mempool.new limits).acceptAll chainUtxo txs).ordered.map MempoolEntry.tx⟩
                chainUtxo = .ok () := by
  intro h
  have hpasses := h ⟨1, 1000⟩ ∅ [] (by simp [Mempool.NeverFull]) genesis.header minting
    (by decide) ⟨fun _ _ ↦ rfl, rfl⟩
  exact absurd hpasses (by decide)

/-- The pool admits a transaction and its child. -/
theorem parent_and_child_pass : Chain.validateBlockTransactionsForUtxo
    ⟨first.header, coin 1 :: ((Mempool.new ⟨10, 1000⟩).acceptAll start.utxo
      [parentTx, childTx]).ordered.map MempoolEntry.tx⟩ start.utxo = .ok () := by
  refine Mempool.neverFull_passes ⟨10, 1000⟩ start.utxo [parentTx, childTx] (by decide +kernel)
    first.header (coin 1) (by decide) (by decide) ⟨fun outpoint htxid ↦ ?_, by decide +kernel⟩
  by_contra hsome
  obtain ⟨entry, hentry⟩ := Option.ne_none_iff_exists'.mp hsome
  have hutxo : start.utxo = applyAll [(coin 0).patch] ∅ := rfl
  rw [hutxo] at hentry
  rcases lookup_applyAll_cases _ _ hentry with hempty | ⟨patch, hpatch, hwrite⟩
  · cases hempty
  · obtain rfl := List.mem_singleton.mp hpatch
    have houtput : (coin 0).HasOutput outpoint := hwrite
    have hne : (coin 0).txid ≠ (coin 1).txid := by decide +kernel
    exact hne (houtput.txid_eq.symm.trans htxid)

end Bitrst.Sample
