import Bitrst.MempoolConsensus
import Bitrst.MempoolResync

/-!
# What an admission depends on

A transaction is checked on the view that the residents of the pool leave of the
unspent outputs.  Under an outpoint that no resident spends, the view has what is
unspent on the chain and what the residents create, as long as these agree; so
the order of the residents does not show in it, and more residents only add to
what a transaction can spend.
-/

namespace Bitrst

open Support

variable [Crypto]

/-! ## Views -/

/-- What the transaction creates under the outpoint. -/
def Transaction.outputAt (tx : Transaction) (outpoint : OutPoint) : Option UtxoEntry :=
  tx.patch.written outpoint

theorem Transaction.hasOutput_of_outputAt {tx : Transaction} {outpoint : OutPoint}
    {entry : UtxoEntry} (h : tx.outputAt outpoint = some entry) : tx.HasOutput outpoint :=
  Patch.written_isSome_iff.mp (Option.isSome_of_mem h)

namespace UtxoSet

variable {utxo : UtxoSet} {txs txs' : List Transaction} {outpoint : OutPoint} {entry : UtxoEntry}

/-- The entry is unspent, or one of the transactions creates it. -/
def Supplies (utxo : UtxoSet) (txs : List Transaction) (outpoint : OutPoint) (entry : UtxoEntry) :
    Prop :=
  utxo.lookup outpoint = some entry ∨ ∃ tx ∈ txs, tx.outputAt outpoint = some entry

theorem Supplies.mono (h : utxo.Supplies txs outpoint entry) (hsub : txs ⊆ txs') :
    utxo.Supplies txs' outpoint entry :=
  h.imp_right fun ⟨tx, htx, houtput⟩ ↦ ⟨tx, hsub htx, houtput⟩

/-- What is supplied under the outpoint is one entry. -/
def SuppliesOnce (utxo : UtxoSet) (txs : List Transaction) (outpoint : OutPoint) : Prop :=
  ∀ entry entry', utxo.Supplies txs outpoint entry → utxo.Supplies txs outpoint entry' →
    entry = entry'

theorem SuppliesOnce.anti (h : utxo.SuppliesOnce txs' outpoint) (hsub : txs ⊆ txs') :
    utxo.SuppliesOnce txs outpoint :=
  fun _ _ hentry hentry' ↦ h _ _ (hentry.mono hsub) (hentry'.mono hsub)

/-- What the transactions leave is supplied. -/
theorem supplies_of_lookup (h : (utxo.applyTransactions txs).lookup outpoint = some entry) :
    utxo.Supplies txs outpoint entry := by
  rw [applyTransactions_eq_applyAll] at h
  apply (lookup_applyAll_written _ _ h).imp_right
  rintro ⟨patch, hpatch, hwritten⟩
  obtain ⟨tx, htx, rfl⟩ := List.mem_map.mp hpatch
  exact ⟨tx, htx, hwritten⟩

/-- The transactions leave what is supplied, where none of them spends. -/
theorem lookup_applyTransactions_iff (hunspent : ∀ tx ∈ txs, outpoint ∉ tx.spentOutPoints)
    (honce : utxo.SuppliesOnce txs outpoint) :
    (utxo.applyTransactions txs).lookup outpoint = some entry ↔
      utxo.Supplies txs outpoint entry := by
  have hsupplied : ∀ entry, Supplied (txs.map Transaction.patch) utxo outpoint entry ↔
      utxo.Supplies txs outpoint entry := by
    intro entry
    simp only [Supplied, Supplies, Transaction.outputAt, List.mem_map, exists_exists_and_eq_and]
  rw [applyTransactions_eq_applyAll, ← hsupplied]
  refine lookup_applyAll_iff (fun patch hpatch ↦ ?_) fun v w hv hw ↦
    honce v w ((hsupplied v).mp hv) ((hsupplied w).mp hw)
  obtain ⟨tx, htx, rfl⟩ := List.mem_map.mp hpatch
  exact hunspent tx htx

/-- Every unspent output was created by one of the transactions. -/
def CreatedBy (utxo : UtxoSet) (confirmed : Set Transaction) : Prop :=
  ∀ outpoint entry, utxo.lookup outpoint = some entry →
    ∃ tx ∈ confirmed, tx.outputAt outpoint = some entry

/-- Transactions with ids of their own supply one entry. -/
theorem CreatedBy.suppliesOnce {confirmed : Set Transaction} (h : utxo.CreatedBy confirmed)
    (hinj : Set.InjOn Transaction.txid (confirmed ∪ {tx | tx ∈ txs})) (outpoint : OutPoint) :
    utxo.SuppliesOnce txs outpoint := by
  have hcreator : ∀ entry, utxo.Supplies txs outpoint entry →
      ∃ tx ∈ confirmed ∪ {tx | tx ∈ txs}, tx.outputAt outpoint = some entry := by
    rintro entry (hunspent | ⟨tx, htx, houtput⟩)
    · obtain ⟨tx, htx, houtput⟩ := h outpoint entry hunspent
      exact ⟨tx, Or.inl htx, houtput⟩
    · exact ⟨tx, Or.inr htx, houtput⟩
  intro entry entry' hentry hentry'
  obtain ⟨tx, htx, houtput⟩ := hcreator entry hentry
  obtain ⟨tx', htx', houtput'⟩ := hcreator entry' hentry'
  have htxid : tx.txid = tx'.txid :=
    (Transaction.hasOutput_of_outputAt houtput).txid_eq.symm.trans
      (Transaction.hasOutput_of_outputAt houtput').txid_eq
  obtain rfl := hinj htx htx' htxid
  exact Option.some.inj (houtput.symm.trans houtput')

end UtxoSet

/-- The unspent outputs of a chain were created by the transactions of its active blocks. -/
theorem Chain.Reachable.createdBy [Features] {genesis : Block} {chain : Chain}
    (h : Chain.Reachable genesis chain) :
    chain.utxo.CreatedBy {tx | ∃ b ∈ chain.blocks, tx ∈ b.transactions} := by
  intro outpoint entry hentry
  obtain ⟨b, hb, tx, htx, hwritten⟩ := h.backed.created hentry
  exact ⟨tx, ⟨b, hb, htx⟩, hwritten⟩

/-! ## Validity on a view -/

theorem isValidForView_iff {tx : Transaction} {view : UtxoSet} :
    isValidForView tx view = true ↔
      (∃ size, validateTxStructure tx = .ok size) ∧ tx.isCoinbase = false ∧
        checkDuplicateInputs tx = .ok () ∧ view.validateTransaction tx = .ok () ∧
          verifyScripts tx view = .ok () := by
  have hok : ∀ {ε α : Type} (result : Except ε α),
      result.isOk = true ↔ ∃ value, result = .ok value := by
    intro ε α result
    cases result <;> simp [Except.isOk, Except.toBool]
  simp only [isValidForView, Bool.and_eq_true, Bool.not_eq_true', hok, and_assoc]
  constructor
  · rintro ⟨hstructure, hcoinbase, ⟨_, hdistinct⟩, ⟨_, hvalid⟩, _, hscripts⟩
    exact ⟨hstructure, hcoinbase, hdistinct, hvalid, hscripts⟩
  · rintro ⟨hstructure, hcoinbase, hdistinct, hvalid, hscripts⟩
    exact ⟨hstructure, hcoinbase, ⟨_, hdistinct⟩, ⟨_, hvalid⟩, _, hscripts⟩

/-- A valid transaction stays valid on a view that has all it spends. -/
theorem isValidForView_mono {tx : Transaction} {view view' : UtxoSet}
    (h : isValidForView tx view = true)
    (hview : ∀ input ∈ tx.inputs, ∀ entry, view.lookup input.outPoint = some entry →
      view'.lookup input.outPoint = some entry) : isValidForView tx view' = true := by
  have hsame : isValidForView tx view = isValidForView tx view' := by
    refine Mempool.isValidForView_congr fun input hinput ↦ ?_
    obtain ⟨entry, hentry⟩ :=
      Option.isSome_iff_exists.mp ((Mempool.isValidForView_inputs h).2 input hinput)
    rw [hentry, hview input hinput entry hentry]
  rwa [← hsame]

omit [Crypto] in
theorem computeFee_of_valid {tx : Transaction} {view : UtxoSet}
    (hcoinbase : tx.isCoinbase = false) (h : view.validateTransaction tx = .ok ()) :
    ∃ fee, computeFee tx view = .ok fee := by
  unfold UtxoSet.validateTransaction at h
  rw [hcoinbase, if_neg Bool.false_ne_true] at h
  unfold computeFee
  cases hin : view.inputSum tx.inputs 0 with
  | error e =>
      rw [hin] at h
      cases h
  | ok sumIn =>
      cases hout : UtxoSet.outputSum tx with
      | error e =>
          rw [hin, hout] at h
          cases h
      | ok sumOut =>
          rw [hin, hout] at h
          have hle : ¬ sumIn < sumOut := by
            intro hlt
            change (if sumIn < sumOut then _ else _) = _ at h
            rw [if_pos hlt] at h
            cases h
          exact ⟨sumIn - sumOut, if_neg hle⟩

namespace Mempool

variable {pool : Mempool} {chainUtxo : UtxoSet} {tx : Transaction}

omit [Crypto] in
theorem checkMempoolConflicts_ok_iff {inputs : List TxInput} :
    pool.checkMempoolConflicts inputs = .ok () ↔
      ∀ input ∈ inputs, pool.spends.lookup input.outPoint = none := by
  refine ⟨checkMempoolConflicts_ok, fun h ↦ ?_⟩
  induction inputs with
  | nil => rfl
  | cons input rest ih =>
      rw [checkMempoolConflicts, h input List.mem_cons_self]
      exact ih fun other hother ↦ h other (List.mem_cons_of_mem _ hother)

/-- The checks of an admission pass for a new transaction without conflicts that is valid on the
view of the pool, and for no other. -/
theorem validateCandidate_ok_iff :
    (∃ found, pool.validateCandidate tx chainUtxo = .ok found) ↔
      pool.entries.lookup tx.txid = none ∧
        (∀ input ∈ tx.inputs, pool.spends.lookup input.outPoint = none) ∧
          isValidForView tx (pool.buildValidationView chainUtxo) = true := by
  rw [isValidForView_iff, ← checkMempoolConflicts_ok_iff]
  unfold validateCandidate
  cases hstructure : validateTxStructure tx with
  | error e => simp
  | ok size =>
      cases hcoinbase : tx.isCoinbase with
      | true => simp
      | false =>
          cases hfresh : pool.entries.lookup tx.txid with
          | some entry => simp
          | none =>
              cases hdistinct : checkDuplicateInputs tx with
              | error e => simp
              | ok _ =>
                  cases hconflicts : pool.checkMempoolConflicts tx.inputs with
                  | error e => simp
                  | ok _ =>
                      cases hvalid :
                          (pool.buildValidationView chainUtxo).validateTransaction tx with
                      | error e => simp [hvalid]
                      | ok _ =>
                          obtain ⟨fee, hfee⟩ := computeFee_of_valid hcoinbase hvalid
                          cases hscripts : verifyScripts tx (pool.buildValidationView chainUtxo) <;>
                            simp [hvalid, hfee, hscripts]

theorem validateCandidate_error_iff :
    (∃ e, pool.validateCandidate tx chainUtxo = .error e) ↔
      ¬ ∃ found, pool.validateCandidate tx chainUtxo = .ok found := by
  cases pool.validateCandidate tx chainUtxo <;> simp

/-! ## The transactions of a pool -/

/-- The pool is left by some run of calls on a new one. -/
def Reached (pool : Mempool) : Prop := ∃ limits calls, runCalls calls (new limits) = pool

theorem Reached.sound (h : Reached pool) : Sound pool := by
  obtain ⟨limits, calls, rfl⟩ := h
  exact (runCalls_moves calls (new limits)).sound (new_sound limits)

/-- The transactions of the pool in the order of their admission. -/
def transactions (pool : Mempool) : List Transaction := pool.ordered.map MempoolEntry.tx

theorem Sound.mem_transactions_iff (h : Sound pool) :
    tx ∈ pool.transactions ↔ pool.getTransaction tx.txid = some tx := by
  unfold transactions getTransaction
  rw [List.mem_map, Option.map_eq_some_iff]
  constructor
  · rintro ⟨entry, hentry, rfl⟩
    obtain ⟨txid, hlookup⟩ := mem_ordered.mp hentry
    exact ⟨entry, h.key txid entry hlookup ▸ hlookup, rfl⟩
  · rintro ⟨entry, hentry, rfl⟩
    exact ⟨entry, mem_ordered.mpr ⟨_, hentry⟩, rfl⟩

theorem Sound.getTransaction_iff (h : Sound pool) {txid : Hash256} :
    pool.getTransaction txid = some tx ↔ tx ∈ pool.transactions ∧ tx.txid = txid := by
  constructor
  · intro htx
    obtain ⟨entry, hentry, rfl⟩ := Option.map_eq_some_iff.mp htx
    obtain rfl := h.key txid entry hentry
    exact ⟨h.mem_transactions_iff.mpr htx, rfl⟩
  · rintro ⟨htx, rfl⟩
    exact h.mem_transactions_iff.mp htx

theorem Sound.lookup_none_iff (h : Sound pool) {txid : Hash256} :
    pool.entries.lookup txid = none ↔ ∀ tx ∈ pool.transactions, tx.txid ≠ txid := by
  constructor
  · rintro hnone tx htx rfl
    have hfound := h.mem_transactions_iff.mp htx
    rw [getTransaction, hnone] at hfound
    cases hfound
  · intro hall
    by_contra hsome
    obtain ⟨entry, hentry⟩ := Option.ne_none_iff_exists'.mp hsome
    exact hall entry.tx (List.mem_map_of_mem (mem_ordered.mpr ⟨txid, hentry⟩))
      (h.key txid entry hentry)

/-- An admission adds its transaction at the end. -/
theorem Sound.transactions_insertEntry (h : Sound pool) {fee : UInt64} {candidate : MempoolEntry}
    (hvalid : pool.validateCandidate tx chainUtxo = .ok (fee, candidate)) :
    (pool.insertEntry tx.txid candidate).transactions = pool.transactions ++ [tx] := by
  have hc := validateCandidate_ok hvalid
  rw [transactions, h.ordered_insertEntry hc.seq_eq hc.fresh, List.map_append, List.map_singleton,
    hc.tx_eq]
  rfl

/-- An outpoint is recorded as spent when a resident has it as an input. -/
theorem Sound.spends_none_iff (h : Sound pool) {outpoint : OutPoint} :
    pool.spends.lookup outpoint = none ↔
      ∀ tx ∈ pool.transactions, outpoint ∉ tx.inputs.map TxInput.outPoint := by
  constructor
  · intro hnone tx htx hinput
    obtain ⟨entry, hentry, rfl⟩ := List.mem_map.mp htx
    obtain ⟨txid, hlookup⟩ := mem_ordered.mp hentry
    rw [(h.spends_iff outpoint txid).mpr ⟨entry, hlookup, hinput⟩] at hnone
    cases hnone
  · intro hall
    by_contra hsome
    obtain ⟨owner, howner⟩ := Option.ne_none_iff_exists'.mp hsome
    obtain ⟨entry, hentry, hinput⟩ := (h.spends_iff outpoint owner).mp howner
    exact hall entry.tx (List.mem_map_of_mem (mem_ordered.mpr ⟨owner, hentry⟩)) hinput

/-- Two residents do not spend the same outpoint. -/
theorem Sound.spender_unique (h : Sound pool) {tx' : Transaction} {outpoint : OutPoint}
    (htx : tx ∈ pool.transactions) (htx' : tx' ∈ pool.transactions)
    (hinput : outpoint ∈ tx.inputs.map TxInput.outPoint)
    (hinput' : outpoint ∈ tx'.inputs.map TxInput.outPoint) : tx = tx' := by
  obtain ⟨entry, hentry, rfl⟩ := List.mem_map.mp htx
  obtain ⟨entry', hentry', rfl⟩ := List.mem_map.mp htx'
  obtain ⟨txid, hlookup⟩ := mem_ordered.mp hentry
  obtain ⟨txid', hlookup'⟩ := mem_ordered.mp hentry'
  have hmine := (h.spends_iff outpoint txid).mpr ⟨entry, hlookup, hinput⟩
  have htheirs := (h.spends_iff outpoint txid').mpr ⟨entry', hlookup', hinput'⟩
  rw [hmine] at htheirs
  obtain rfl := Option.some.inj htheirs
  rw [hlookup] at hlookup'
  rw [Option.some.inj hlookup']

/-- An outpoint that no resident spends is bound in the view to what is supplied. -/
theorem Sound.lookup_view_iff (h : Sound pool) {outpoint : OutPoint} {entry : UtxoEntry}
    (hunspent : pool.spends.lookup outpoint = none)
    (honce : chainUtxo.SuppliesOnce pool.transactions outpoint) :
    (pool.buildValidationView chainUtxo).lookup outpoint = some entry ↔
      chainUtxo.Supplies pool.transactions outpoint entry :=
  UtxoSet.lookup_applyTransactions_iff
    (fun tx htx hspent ↦
      h.spends_none_iff.mp hunspent tx htx (Transaction.mem_spentOutPoints hspent)) honce

end Mempool

end Bitrst

namespace Bitrst.Sample

theorem start_createdBy :
    start.utxo.CreatedBy {tx | ∃ b ∈ start.blocks, tx ∈ b.transactions} := by
  have hrun : Chain.Reachable genesis start := start_reachable
  exact Chain.Reachable.createdBy hrun

/-- The coinbase of the genesis block, a transaction that spends it and a child of that
transaction have ids of their own. -/
theorem txid_injOn_family {txs : List Transaction} (h : txs ⊆ [childTx, parentTx]) :
    Set.InjOn Transaction.txid
      ({tx | ∃ b ∈ start.blocks, tx ∈ b.transactions} ∪ {tx | tx ∈ txs}) := by
  have hmem : ∀ tx ∈ {tx | ∃ b ∈ start.blocks, tx ∈ b.transactions} ∪ {tx | tx ∈ txs},
      tx ∈ [coin 0, childTx, parentTx] := by
    rintro tx (⟨b, hb, htx⟩ | htx)
    · obtain rfl : b = genesis := List.mem_singleton.mp hb
      obtain rfl : tx = coin 0 := List.mem_singleton.mp htx
      exact List.mem_cons_self
    · exact List.mem_cons_of_mem _ (h htx)
  have hdistinct : ([coin 0, childTx, parentTx].map Transaction.txid).Nodup := by decide +kernel
  intro tx htx tx' htx' heq
  exact List.inj_on_of_nodup_map hdistinct (hmem tx htx) (hmem tx' htx') heq

theorem family_reached : family.Reached :=
  ⟨⟨10, 1000⟩, [.acceptTx parentTx start.utxo, .acceptTx childTx start.utxo], rfl⟩

theorem family_transactions : family.transactions = [parentTx, childTx] := by decide +kernel

/-- The parent is in the pool and in a block, and is one transaction. -/
theorem txid_injOn_confirmed : Set.InjOn Transaction.txid
    ({tx | ∃ b ∈ confirmed.blocks, tx ∈ b.transactions} ∪ {tx | tx ∈ family.transactions}) := by
  have hdistinct : ([coin 0, coin 1, parentTx, childTx].map Transaction.txid).Nodup := by
    decide +kernel
  have hmem : ∀ tx ∈ {tx | ∃ b ∈ confirmed.blocks, tx ∈ b.transactions} ∪
      {tx | tx ∈ family.transactions}, tx ∈ [coin 0, coin 1, parentTx, childTx] := by
    rintro tx (⟨b, hb, htx⟩ | htx)
    · rcases List.mem_cons.mp hb with rfl | hb
      · obtain rfl : tx = coin 0 := List.mem_singleton.mp htx
        simp
      · rw [List.mem_singleton.mp hb] at htx
        exact List.mem_cons_of_mem _ (List.mem_of_mem_take (i := 2) htx)
    · change tx ∈ family.transactions at htx
      rw [family_transactions] at htx
      exact List.mem_cons_of_mem _ (List.mem_cons_of_mem _ htx)
  exact fun tx htx tx' htx' ↦ List.inj_on_of_nodup_map hdistinct (hmem tx htx) (hmem tx' htx')

end Bitrst.Sample
