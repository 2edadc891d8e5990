import Bitrst.MempoolRevalidation

/-!
# Queries to the pool

`is_valid_tx` asks whether a transaction is valid behind the residents other than
itself, and `serve_transaction` hands out a resident that is, and removes it if
it is not.  In a pool that was only ever offered transactions the query agrees
with admission and every resident is handed out.  The removal takes the resident
alone, so the residents that spend from it stay behind.
-/

namespace Bitrst

open Support

variable [Crypto]

namespace Mempool

variable {pool : Mempool} {chainUtxo : UtxoSet} {offered : List Transaction} {tx : Transaction}

/-! ## Pools that were offered transactions -/

/-- The residents were offered, and each is valid behind those before it. -/
structure Fed (chainUtxo : UtxoSet) (offered : List Transaction) (pool : Mempool) : Prop where
  sound : Sound pool
  offered : pool.transactions ⊆ offered
  valid : pool.findInvalidTxids chainUtxo = []

theorem new_fed (limits : MempoolLimits) : Fed chainUtxo offered (new limits) :=
  ⟨new_sound limits, List.nil_subset _, rfl⟩

theorem findInvalidLoop_concat {entries : List MempoolEntry} {entry : MempoolEntry}
    {view : UtxoSet} (hvalid : findInvalidLoop entries view = [])
    (hentry : isValidForView entry.tx
      (view.applyTransactions (entries.map MempoolEntry.tx)) = true) :
    findInvalidLoop (entries ++ [entry]) view = [] := by
  induction entries generalizing view with
  | nil =>
      change isValidForView entry.tx view = true at hentry
      rw [List.nil_append, findInvalidLoop, if_pos hentry]
      rfl
  | cons first rest ih =>
      rw [findInvalidLoop] at hvalid
      split at hvalid
      · rename_i hfirst
        rw [List.cons_append, findInvalidLoop, if_pos hfirst]
        exact ih hvalid hentry
      · cases hvalid

theorem Fed.acceptTx (h : Fed chainUtxo offered pool) (htx : tx ∈ offered)
    (hlimits : ¬ pool.wouldExceedLimits tx.serializedSize) :
    Fed chainUtxo offered (pool.acceptTx tx chainUtxo).2 := by
  have hsound := h.sound.acceptTx tx chainUtxo
  rcases @acceptTx_offer _ _ chainUtxo _ hlimits with ⟨e, -, heq⟩ | ⟨fee, candidate, hvalid, heq⟩
  · rwa [heq]
  · have hc := validateCandidate_ok hvalid
    rw [heq] at hsound ⊢
    refine ⟨hsound, ?_, ?_⟩
    · rw [h.sound.transactions_insertEntry hvalid]
      exact List.append_subset.mpr ⟨h.offered, List.cons_subset.mpr ⟨htx, List.nil_subset _⟩⟩
    · rw [findInvalidTxids, h.sound.ordered_insertEntry hc.seq_eq hc.fresh]
      apply findInvalidLoop_concat h.valid
      rw [hc.tx_eq]
      exact (validateCandidate_ok_iff.mp ⟨_, hvalid⟩).2.2

theorem acceptAll_fed {limits : MempoolLimits} (h : NeverFull limits chainUtxo offered) :
    Fed chainUtxo offered ((new limits).acceptAll chainUtxo offered) :=
  h.invariant (Fed chainUtxo offered) (new_fed limits) fun _ _ htx hfed ↦ hfed.acceptTx htx

theorem Sound.transactions_nodup (h : Sound pool) : pool.transactions.Nodup := by
  refine List.Nodup.map_on ?_ (ordered_nodup h)
  intro entry hentry entry' hentry' heq
  rw [h.mem_ordered_iff] at hentry hentry'
  rw [heq, hentry'] at hentry
  exact (Option.some.inj hentry).symm

/-- Where no output of an offered transaction is unspent on the chain, one entry is supplied. -/
theorem Fed.suppliesOnce (h : Fed chainUtxo offered pool)
    (hnew : ∀ tx ∈ offered, ∀ outpoint, tx.HasOutput outpoint → chainUtxo.lookup outpoint = none)
    (outpoint : OutPoint) : chainUtxo.SuppliesOnce pool.transactions outpoint := by
  have hcreated : ∀ tx ∈ pool.transactions, ∀ entry, tx.outputAt outpoint = some entry →
      chainUtxo.lookup outpoint = none := fun tx htx _ houtput ↦
    hnew tx (h.offered htx) outpoint (Transaction.hasOutput_of_outputAt houtput)
  rintro entry entry' (hunspent | ⟨tx, htx, houtput⟩) (hunspent' | ⟨tx', htx', houtput'⟩)
  · exact Option.some.inj (hunspent.symm.trans hunspent')
  · cases hunspent.symm.trans (hcreated tx' htx' _ houtput')
  · cases hunspent'.symm.trans (hcreated tx htx _ houtput)
  · have htxid := (Transaction.hasOutput_of_outputAt houtput).txid_eq.symm.trans
      (Transaction.hasOutput_of_outputAt houtput').txid_eq
    obtain rfl := h.sound.txid_inj htx htx' htxid
    exact Option.some.inj (houtput.symm.trans houtput')

/-- What a resident spends is spent on the view: nothing after it creates the output again. -/
theorem Fed.lookup_view_of_spent (h : Fed chainUtxo offered pool)
    (hnew : ∀ tx ∈ offered, ∀ outpoint, tx.HasOutput outpoint → chainUtxo.lookup outpoint = none)
    (htx : tx ∈ pool.transactions) {input : TxInput} (hinput : input ∈ tx.inputs) :
    (pool.buildValidationView chainUtxo).lookup input.outPoint = none := by
  obtain ⟨entry, hentry, rfl⟩ := List.mem_map.mp htx
  obtain ⟨before, after, hsplit, hvalid⟩ := exists_valid_split h.valid hentry
  have htransactions : pool.transactions =
      before.map MempoolEntry.tx ++ (entry.tx :: after.map MempoolEntry.tx) := by
    rw [transactions, hsplit, List.map_append, List.map_cons]
  -- Another resident that creates the output would have to come before as well as after.
  have hnever : ∀ tx ∈ entry.tx :: after.map MempoolEntry.tx, ¬ tx.HasOutput input.outPoint := by
    intro tx htx houtput
    have hmem : tx ∈ pool.transactions := by
      rw [htransactions]
      exact List.mem_append_right _ htx
    obtain ⟨value, hvalue⟩ :=
      Option.isSome_iff_exists.mp ((isValidForView_inputs hvalid).2 input hinput)
    rw [UtxoSet.applyTransactions_eq_applyAll] at hvalue
    rcases lookup_applyAll_cases _ _ hvalue with hunspent | ⟨patch, hpatch, hwrite⟩
    · rw [hnew tx (h.offered hmem) _ houtput] at hunspent
      cases hunspent
    · obtain ⟨parent, hparent, rfl⟩ := List.mem_map.mp hpatch
      have hcreates : parent.HasOutput input.outPoint := hwrite
      have hparentMem : parent ∈ pool.transactions := by
        rw [htransactions]
        exact List.mem_append_left _ hparent
      obtain rfl := h.sound.txid_inj hparentMem hmem
        (hcreates.txid_eq.symm.trans houtput.txid_eq)
      have hnodup := h.sound.transactions_nodup
      rw [htransactions] at hnodup
      exact (List.nodup_append.mp hnodup).2.2 parent hparent parent htx rfl
  have hcoinbase : entry.tx.isCoinbase = false := (isValidForView_iff.mp hvalid).2.1
  have hspent : input.outPoint ∈ entry.tx.patch.spends := by
    change input.outPoint ∈ entry.tx.spentOutPoints
    rw [Transaction.spentOutPoints, hcoinbase]
    exact List.mem_map_of_mem hinput
  by_contra hsome
  obtain ⟨value, hvalue⟩ := Option.ne_none_iff_exists'.mp hsome
  change (chainUtxo.applyTransactions pool.transactions).lookup input.outPoint = some value
    at hvalue
  rw [htransactions, UtxoSet.applyTransactions_append, UtxoSet.applyTransactions_eq_applyAll,
    List.map_cons, applyAll_cons] at hvalue
  rcases lookup_applyAll_cases _ _ hvalue with hkept | ⟨patch, hpatch, hwrite⟩
  · rw [entry.tx.patch.lookup_apply_of_notMem _ (hnever _ List.mem_cons_self),
      if_pos hspent] at hkept
    cases hkept
  · obtain ⟨later, hlater, rfl⟩ := List.mem_map.mp hpatch
    exact hnever later (List.mem_cons_of_mem _ hlater) hwrite

/-- A transaction that is not in the pool is asked about on the view of the pool. -/
theorem Sound.isValidTx_eq (h : Sound pool) (hout : pool.contains tx.txid = false) :
    pool.isValidTx tx chainUtxo = isValidForView tx (pool.buildValidationView chainUtxo) := by
  have hnone : pool.entries.lookup tx.txid = none := by simpa [contains] using hout
  have hall : pool.ordered.filter (fun entry ↦ entry.tx.txid ≠ tx.txid) = pool.ordered := by
    refine List.filter_eq_self.mpr fun entry hentry ↦ decide_eq_true fun heq ↦ ?_
    rw [h.mem_ordered_iff, heq, hnone] at hentry
    cases hentry
  rw [isValidTx, hall]
  rfl

/-- Below its limits the pool admits an outsider exactly when it is valid. -/
theorem Fed.accepts_iff (h : Fed chainUtxo offered pool)
    (hnew : ∀ tx ∈ offered, ∀ outpoint, tx.HasOutput outpoint → chainUtxo.lookup outpoint = none)
    (hlimits : ¬ pool.wouldExceedLimits tx.serializedSize)
    (hout : pool.contains tx.txid = false) :
    (∃ accepted, (pool.acceptTx tx chainUtxo).1 = .ok accepted) ↔
      pool.isValidTx tx chainUtxo = true := by
  have hfound : (∃ accepted, (pool.acceptTx tx chainUtxo).1 = .ok accepted) ↔
      ∃ found, pool.validateCandidate tx chainUtxo = .ok found := by
    rcases @acceptTx_offer _ _ chainUtxo _ hlimits with
      ⟨e, hrefused, heq⟩ | ⟨fee, candidate, hvalid, heq⟩
    · simp [hrefused, heq]
    · simp [hvalid, heq]
  rw [hfound, validateCandidate_ok_iff, h.sound.isValidTx_eq hout]
  refine ⟨fun hok ↦ hok.2.2, fun hvalid ↦ ⟨by simpa [contains] using hout, ?_, hvalid⟩⟩
  intro input hinput
  refine h.sound.spends_none_iff.mpr fun other hother hspent ↦ ?_
  obtain ⟨input', hinput', heq⟩ := List.mem_map.mp hspent
  have hnone := h.lookup_view_of_spent hnew hother hinput'
  have hsome := (isValidForView_inputs hvalid).2 input hinput
  rw [← heq, hnone] at hsome
  cases hsome

/-- A resident is valid behind the others. -/
theorem Fed.isValidTx (h : Fed chainUtxo offered pool)
    (hnew : ∀ tx ∈ offered, ∀ outpoint, tx.HasOutput outpoint → chainUtxo.lookup outpoint = none)
    (htx : tx ∈ pool.transactions) : pool.isValidTx tx chainUtxo = true := by
  obtain ⟨entry, hentry, rfl⟩ := List.mem_map.mp htx
  obtain ⟨before, after, hsplit, hvalid⟩ := exists_valid_split h.valid hentry
  have hnodup := ordered_nodup h.sound
  rw [hsplit] at hnodup
  refine h.sound.valid_behind hentry (fun other hother ↦ ?_) List.filter_sublist.subset ?_
    (h.suppliesOnce hnew) hvalid
  · have hmem : other ∈ pool.ordered := by
      rw [hsplit]
      exact List.mem_append_left _ hother
    refine List.mem_filter.mpr ⟨hmem, decide_eq_true fun heq ↦ ?_⟩
    rw [h.sound.mem_ordered_iff] at hmem hentry
    rw [heq, hentry] at hmem
    rw [← Option.some.inj hmem] at hother
    exact (List.nodup_append.mp hnodup).2.2 entry hother entry List.mem_cons_self rfl
  · intro hmem
    simpa using (List.mem_filter.mp hmem).2

/-- After offers that never met a full pool and share no output with the chain, an outsider is
admitted exactly when it is valid, and a resident is served and the pool left as it is. -/
theorem admission_agrees (limits : MempoolLimits) (chainUtxo : UtxoSet)
    (offered : List Transaction) (hlimits : NeverFull limits chainUtxo offered)
    (hnew : ∀ tx ∈ offered, ∀ outpoint, tx.HasOutput outpoint →
      chainUtxo.lookup outpoint = none) :
    (∀ tx, ¬ ((new limits).acceptAll chainUtxo offered).wouldExceedLimits tx.serializedSize →
      ((new limits).acceptAll chainUtxo offered).contains tx.txid = false →
        ((∃ accepted, (((new limits).acceptAll chainUtxo offered).acceptTx tx chainUtxo).1 =
            .ok accepted) ↔
          ((new limits).acceptAll chainUtxo offered).isValidTx tx chainUtxo = true)) ∧
    ∀ txid tx, ((new limits).acceptAll chainUtxo offered).getTransaction txid = some tx →
      ((new limits).acceptAll chainUtxo offered).serveTransaction txid chainUtxo =
        (some tx, (new limits).acceptAll chainUtxo offered) := by
  have h := acceptAll_fed hlimits
  refine ⟨fun tx ↦ h.accepts_iff hnew, fun txid tx htx ↦ ?_⟩
  have hvalid := h.isValidTx hnew (h.sound.getTransaction_iff.mp htx).1
  simp only [serveTransaction, htx, hvalid, if_true]

/-! ## Serving a stale resident -/

/-- The resident spends from the root or from a descendant of it. -/
inductive Descends (pool : Mempool) (root : Transaction) : Transaction → Prop
  | child {txid : Hash256} {entry : MempoolEntry} (hentry : pool.entries.lookup txid = some entry)
      (hspends : SpendsFrom entry.tx root) : Descends pool root entry.tx
  | through {txid : Hash256} {entry : MempoolEntry} {parent : Transaction}
      (hparent : Descends pool root parent) (hentry : pool.entries.lookup txid = some entry)
      (hspends : SpendsFrom entry.tx parent) : Descends pool root entry.tx

/-- Without another resident that spends from the root it has no descendant but itself. -/
theorem Descends.eq_root {txid : Hash256} {root : Transaction}
    (hroot : pool.getTransaction txid = some root)
    (halone : ∀ key entry, pool.entries.lookup key = some entry → key ≠ txid →
      ¬ SpendsFrom entry.tx root) (h : Descends pool root tx) : tx = root := by
  have hchild : ∀ key entry, pool.entries.lookup key = some entry → SpendsFrom entry.tx root →
      entry.tx = root := by
    intro key entry hentry hspends
    obtain rfl : key = txid := by
      by_contra hne
      exact halone key entry hentry hne hspends
    rw [getTransaction, hentry] at hroot
    exact Option.some.inj hroot
  induction h with
  | child hentry hspends => exact hchild _ _ hentry hspends
  | through _ hentry hspends ih =>
      rw [ih] at hspends
      exact hchild _ _ hentry hspends

/-- When a stale resident is asked for, no resident that is left spends from it or from a
descendant of it precisely when no other resident spent from it. -/
theorem serveTransaction_stale_iff {txid : Hash256} (htx : pool.getTransaction txid = some tx)
    (hstale : pool.isValidTx tx chainUtxo = false) :
    (∀ key entry, (pool.serveTransaction txid chainUtxo).2.entries.lookup key = some entry →
      ¬ SpendsFrom entry.tx tx ∧
        ∀ descendant, Descends pool tx descendant → ¬ SpendsFrom entry.tx descendant) ↔
    ∀ key entry, pool.entries.lookup key = some entry → key ≠ txid → ¬ SpendsFrom entry.tx tx := by
  have hserved : (pool.serveTransaction txid chainUtxo).2 = pool.removeEntry txid := by
    simp only [serveTransaction, htx, hstale, Bool.false_eq_true, if_false]
  have hleft : ∀ key entry,
      (pool.serveTransaction txid chainUtxo).2.entries.lookup key = some entry ↔
        key ≠ txid ∧ pool.entries.lookup key = some entry := by
    intro key entry
    rw [hserved, lookup_removeEntry]
    split <;> simp_all
  constructor
  · intro h key entry hentry hne
    exact (h key entry ((hleft key entry).mpr ⟨hne, hentry⟩)).1
  · intro halone key entry hentry
    obtain ⟨hne, hentry⟩ := (hleft key entry).mp hentry
    refine ⟨halone key entry hentry hne, fun descendant hdescends ↦ ?_⟩
    rw [hdescends.eq_root htx halone]
    exact halone key entry hentry hne

end Mempool

end Bitrst

namespace Bitrst.Sample

open Support

theorem family_neverFull : Mempool.NeverFull ⟨10, 1000⟩ start.utxo [parentTx, childTx] := by
  decide +kernel

/-- No output of the parent or of the child is unspent on the chain of the genesis block. -/
theorem family_new : ∀ tx ∈ [parentTx, childTx], ∀ outpoint, tx.HasOutput outpoint →
    start.utxo.lookup outpoint = none := by
  intro tx htx outpoint houtput
  have hne : ∀ tx ∈ [parentTx, childTx], (coin 0).txid ≠ tx.txid := by decide +kernel
  by_contra hsome
  obtain ⟨entry, hentry⟩ := Option.ne_none_iff_exists'.mp hsome
  obtain ⟨creator, ⟨b, hb, hcreator⟩, hcreated⟩ := start_createdBy outpoint entry hentry
  obtain rfl : b = genesis := List.mem_singleton.mp hb
  obtain rfl : creator = coin 0 := List.mem_singleton.mp hcreator
  exact hne tx htx ((Transaction.hasOutput_of_outputAt hcreated).txid_eq.symm.trans houtput.txid_eq)

theorem family_agrees :
    (∀ tx, ¬ family.wouldExceedLimits tx.serializedSize → family.contains tx.txid = false →
      ((∃ accepted, (family.acceptTx tx start.utxo).1 = .ok accepted) ↔
        family.isValidTx tx start.utxo = true)) ∧
    ∀ txid tx, family.getTransaction txid = some tx →
      family.serveTransaction txid start.utxo = (some tx, family) :=
  Mempool.admission_agrees ⟨10, 1000⟩ start.utxo [parentTx, childTx] family_neverFull family_new

/-- Spends the coinbase of the genesis block like the parent. -/
def rivalTx : Transaction := ⟨1, [⟨coinId0, 0, [], 0xffffffff⟩], [⟨49, []⟩], 0⟩

/-- What is unspent after a block with the rival of the parent. -/
def rivalUtxo : UtxoSet := start.utxo.applyTransactions [coin 1, rivalTx]

theorem family_closed : Mempool.Closed start.utxo family :=
  family_reached.sound.closed_of_valid (Mempool.acceptAll_fed family_neverFull).valid

/-- The child of a stale transaction stays when that is asked for and removed. -/
theorem child_outlives_stale : ¬ ∀ (pool : Mempool) (oldUtxo newUtxo : UtxoSet) (txid : Hash256)
    (tx : Transaction), pool.Reached → Mempool.Closed oldUtxo pool →
      pool.getTransaction txid = some tx → pool.isValidTx tx newUtxo = false →
        ∀ key entry, (pool.serveTransaction txid newUtxo).2.entries.lookup key = some entry →
          ¬ Mempool.SpendsFrom entry.tx tx ∧ ∀ descendant,
            Mempool.Descends pool tx descendant → ¬ Mempool.SpendsFrom entry.tx descendant := by
  intro h
  have hchecks : family.getTransaction parentTx.txid = some parentTx ∧
      family.isValidTx parentTx rivalUtxo = false ∧
      (family.serveTransaction parentTx.txid rivalUtxo).2.entries.lookup childTx.txid =
        some ⟨childTx, 0, 60, 1⟩ ∧
      (⟨parentTx.txid, 0⟩ : OutPoint) ∈ parentTx.createdEntries.map Prod.fst := by
    decide +kernel
  obtain ⟨hparent, hstale, hchild, houtput⟩ := hchecks
  exact (h family start.utxo rivalUtxo parentTx.txid parentTx family_reached family_closed hparent
    hstale childTx.txid _ hchild).1 ⟨_, List.mem_cons_self, houtput⟩

/-- Two transactions of which neither spends from the other. -/
def couple : Mempool :=
  (Mempool.new ⟨10, 1000⟩).acceptAll (grown first).utxo [parentTx, spend coinId1 []]

theorem couple_alone : ∀ pair ∈ couple.entries.entries, pair.1 ≠ parentTx.txid →
    ¬ Mempool.SpendsFrom pair.2.tx parentTx := by
  unfold Mempool.SpendsFrom Transaction.HasOutput
  decide +kernel

/-- Once the rival of the parent is in a block, one of the two transactions is left in the pool,
and it spends nothing that went. -/
theorem couple_stale :
    couple.entries.entries.length = 2 ∧
    ∀ key entry,
      (couple.serveTransaction parentTx.txid
        ((grown first).utxo.applyTransactions [rivalTx])).2.entries.lookup key = some entry →
          ¬ Mempool.SpendsFrom entry.tx parentTx ∧
            ∀ descendant, Mempool.Descends couple parentTx descendant →
              ¬ Mempool.SpendsFrom entry.tx descendant := by
  refine ⟨by decide +kernel, ?_⟩
  apply (Mempool.serveTransaction_stale_iff (by decide +kernel) (by decide +kernel)).mpr
  intro key entry hentry
  exact couple_alone ⟨key, entry⟩ (EntryMap.mem_entries_iff.mpr hentry)

end Bitrst.Sample
