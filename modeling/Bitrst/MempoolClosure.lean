import Bitrst.ChainCoherence
import Bitrst.MempoolBookkeeping

/-!
# Closure of the transaction pool under its dependencies

An admission is checked against the residents of the pool, and only then are
residents evicted to make room for it.  Evicting keeps the pool closed, since a
victim takes its recorded descendants along, but the candidate is no recorded
descendant yet.  `acceptAll_closed_iff` says exactly which admissions keep the
pool closed: those that do not evict the parents of the candidate.
-/

namespace Bitrst

open Support

variable [Crypto]

/-- The transaction has an output under the outpoint. -/
def Transaction.HasOutput (tx : Transaction) (outpoint : OutPoint) : Prop :=
  outpoint ∈ tx.createdEntries.map Prod.fst

theorem Transaction.HasOutput.txid_eq {tx : Transaction} {outpoint : OutPoint}
    (h : tx.HasOutput outpoint) : outpoint.txid = tx.txid := by
  obtain ⟨created, hcreated, rfl⟩ := List.mem_map.mp h
  obtain ⟨indexed, -, rfl⟩ := List.mem_map.mp hcreated
  rfl

namespace UtxoSet

omit [Crypto] in
/-- What a validated transaction spends is there. -/
theorem inputSum_ok {utxo : UtxoSet} {inputs : List TxInput} {sum total : UInt64}
    (h : utxo.inputSum inputs sum = .ok total) :
    ∀ input ∈ inputs, (utxo.lookup input.outPoint).isSome := by
  induction inputs generalizing sum with
  | nil => simp
  | cons input rest ih =>
      unfold inputSum at h
      split at h
      · cases h
      · rename_i value hvalue
        have hfound : (utxo.lookup input.outPoint).isSome := by
          unfold getValue at hvalue
          cases hlookup : utxo.lookup input.outPoint with
          | none => simp [hlookup] at hvalue
          | some entry => rfl
        split at h
        · cases h
        · intro other hother
          rcases List.mem_cons.mp hother with rfl | hother
          · exact hfound
          · exact ih h other hother

omit [Crypto] in
theorem validateTransaction_inputs {utxo : UtxoSet} {tx : Transaction}
    (hcoinbase : tx.isCoinbase = false) (h : utxo.validateTransaction tx = .ok ()) :
    ∀ input ∈ tx.inputs, (utxo.lookup input.outPoint).isSome := by
  unfold validateTransaction at h
  rw [hcoinbase] at h
  cases hsum : utxo.inputSum tx.inputs 0 with
  | error e =>
      simp only [hsum] at h
      cases h
  | ok total => exact inputSum_ok hsum

end UtxoSet

namespace Mempool

variable {pool : Mempool} {chainUtxo : UtxoSet}

/-- Every input is unspent on the chain, or spends an output of an older entry. -/
def Closed (chainUtxo : UtxoSet) (pool : Mempool) : Prop :=
  ∀ txid entry, pool.entries.lookup txid = some entry → ∀ input ∈ entry.tx.inputs,
    (chainUtxo.lookup input.outPoint).isSome ∨
      ∃ parent, pool.entries.lookup input.previousOutput = some parent ∧
        parent.seq < entry.seq ∧ parent.tx.HasOutput input.outPoint

/-! ## Making room -/

/-- The candidate does not fit and the victim has to give way to it. -/
def Evicts (candidate : MempoolEntry) (pool : Mempool) (victim : Hash256) : Prop :=
  pool.wouldExceedLimits candidate.size ∧ pool.lowestPriorityTxid = some victim ∧
    pool.shouldEvict victim candidate

/-- The candidate fits once the listed entries are evicted, round after round:
each round evicts a victim and its recorded descendants. -/
inductive MakesRoom (candidate : MempoolEntry) : Mempool → List Hash256 → Prop
  | fits {pool : Mempool} (hfits : ¬ pool.wouldExceedLimits candidate.size) :
      MakesRoom candidate pool []
  | evict {pool : Mempool} {victim : Hash256} {rest : List Hash256}
      (hvictim : Evicts candidate pool victim)
      (hrest : MakesRoom candidate (pool.removeEntryAndDescendants victim) rest) :
      MakesRoom candidate pool (victim :: pool.descendantsOf victim ++ rest)

omit [Crypto] in
theorem lowestPriorityTxid_mem {victim : Hash256} (h : pool.lowestPriorityTxid = some victim) :
    ∃ entry, pool.entries.lookup victim = some entry := by
  unfold lowestPriorityTxid at h
  obtain ⟨⟨txid, entry⟩, hmin, rfl⟩ := Option.map_eq_some_iff.mp h
  exact ⟨entry, EntryMap.mem_entries_iff.mp (List.argmin_mem hmin)⟩

omit [Crypto] in
theorem len_removeEntryAndDescendants_lt {victim : Hash256}
    (h : pool.lowestPriorityTxid = some victim) :
    (pool.removeEntryAndDescendants victim).len < pool.len := by
  obtain ⟨entry, hentry⟩ := lowestPriorityTxid_mem h
  exact (len_removeEntries_le (pool.removeEntry victim) _).trans_lt (len_removeEntry_lt hentry)

omit [Crypto] in
/-- The loop ends with room for the candidate exactly when the rounds lead there. -/
theorem makeRoomLoop_ok_iff (candidate : MempoolEntry) (n : ℕ) (pool pool' : Mempool)
    (hfuel : pool.len < n) :
    makeRoomLoop candidate n pool = (.ok (), pool') ↔
      ∃ evicted, MakesRoom candidate pool evicted ∧ pool' = pool.removeEntries evicted := by
  induction n generalizing pool with
  | zero => omega
  | succ n ih =>
      unfold makeRoomLoop
      split
      · rename_i hexceeds
        -- No round is possible: the loop fails and the rounds do not lead anywhere.
        have hstuck : ∀ result : Except MempoolError Unit × Mempool, result.1 ≠ .ok () →
            (∀ victim, ¬ Evicts candidate pool victim) →
              (result = (.ok (), pool') ↔
                ∃ evicted, MakesRoom candidate pool evicted ∧
                  pool' = pool.removeEntries evicted) := by
          intro result hresult hnone
          constructor
          · intro heq
            exact (hresult (congrArg Prod.fst heq)).elim
          · rintro ⟨evicted, hroom, -⟩
            cases hroom with
            | fits hfits => exact (hfits hexceeds).elim
            | evict hvictim _ => exact (hnone _ hvictim).elim
        split
        · rename_i hlowest
          refine hstuck _ (by simp) fun victim hvictim ↦ ?_
          rw [hvictim.2.1] at hlowest
          cases hlowest
        · rename_i victim hlowest
          split
          · rename_i hshould
            have hlen := len_removeEntryAndDescendants_lt hlowest
            rw [ih (pool.removeEntryAndDescendants victim) (by omega)]
            constructor
            · rintro ⟨rest, hrest, heq⟩
              refine ⟨_, .evict ⟨hexceeds, hlowest, hshould⟩ hrest, ?_⟩
              rw [heq, removeEntryAndDescendants, removeEntries_append]
            · rintro ⟨evicted, hroom, heq⟩
              cases hroom with
              | fits hfits => exact (hfits hexceeds).elim
              | @evict _ other rest hother hrest =>
                  obtain rfl : victim = other := Option.some.inj (hlowest.symm.trans hother.2.1)
                  refine ⟨rest, hrest, ?_⟩
                  rw [heq, removeEntryAndDescendants, removeEntries_append]
          · rename_i hshould
            refine hstuck _ (by simp) fun other hother ↦ ?_
            obtain rfl : victim = other := Option.some.inj (hlowest.symm.trans hother.2.1)
            exact hshould hother.2.2
      · rename_i hfits
        constructor
        · intro heq
          exact ⟨[], .fits hfits, (congrArg Prod.snd heq).symm⟩
        · rintro ⟨evicted, hroom, heq⟩
          cases hroom with
          | fits _ => rw [heq]; rfl
          | evict hvictim _ => exact (hfits hvictim.1).elim

omit [Crypto] in
theorem makeRoomFor_ok_iff {candidate : MempoolEntry} {pool' : Mempool} :
    pool.makeRoomFor candidate = (.ok (), pool') ↔
      ∃ evicted, MakesRoom candidate pool evicted ∧ pool' = pool.removeEntries evicted :=
  makeRoomLoop_ok_iff candidate _ pool pool' (Nat.lt_succ_self _)

omit [Crypto] in
theorem MakesRoom.unique {candidate : MempoolEntry} {evicted evicted' : List Hash256}
    (h : MakesRoom candidate pool evicted) (h' : MakesRoom candidate pool evicted') :
    evicted = evicted' := by
  induction h generalizing evicted' with
  | fits hfits =>
      cases h' with
      | fits _ => rfl
      | evict hvictim _ => exact (hfits hvictim.1).elim
  | @evict pool victim rest hvictim _ ih =>
      cases h' with
      | fits hfits => exact (hfits hvictim.1).elim
      | @evict _ other rest' hother hrest =>
          obtain rfl : victim = other := Option.some.inj (hvictim.2.1.symm.trans hother.2.1)
          rw [ih hrest]

/-! ## Evictions keep the pool closed -/

/-- Removing a set of entries keeps a pool closed if it contains every entry
that spends from it. -/
theorem Closed.removeEntries (h : Closed chainUtxo pool) {txids : List Hash256}
    (htxids : ∀ txid entry, pool.entries.lookup txid = some entry →
      ∀ input ∈ entry.tx.inputs, input.previousOutput ∈ txids → txid ∈ txids) :
    Closed chainUtxo (pool.removeEntries txids) := by
  intro txid entry hentry input hinput
  obtain ⟨hkept, hentry⟩ := lookup_removeEntries_iff.mp hentry
  rcases h txid entry hentry input hinput with hchain | ⟨parent, hparent, hseq, houtput⟩
  · exact Or.inl hchain
  · refine Or.inr ⟨parent, lookup_removeEntries_iff.mpr ⟨fun hgone ↦ ?_, hparent⟩, hseq, houtput⟩
    exact hkept (htxids txid entry hentry input hinput hgone)

/-- What spends from the root or from one of its descendants is a descendant. -/
theorem mem_descendantsOf (h : Sound pool) {root txid : Hash256} {entry : MempoolEntry}
    (hentry : pool.entries.lookup txid = some entry) {input : TxInput}
    (hinput : input ∈ entry.tx.inputs)
    (hparent : input.previousOutput ∈ root :: pool.descendantsOf root) :
    txid ∈ pool.descendantsOf root := by
  have hspend : pool.spends.lookup input.outPoint = some txid :=
    (h.spends_iff _ _).mpr ⟨entry, hentry, List.mem_map_of_mem hinput⟩
  exact reachableFrom_closed (fun spend : Sigma fun _ : OutPoint ↦ Hash256 ↦ spend.1.txid)
    Sigma.snd (EntryMap.mem_entries_iff.mpr hspend) (List.mem_cons.mp hparent)

theorem Closed.removeEntryAndDescendants (h : Closed chainUtxo pool) (hsound : Sound pool)
    (txid : Hash256) : Closed chainUtxo (pool.removeEntryAndDescendants txid) :=
  h.removeEntries fun _ _ hentry _ hinput hparent ↦
    List.mem_cons_of_mem _ (mem_descendantsOf hsound hentry hinput hparent)

theorem MakesRoom.closed {candidate : MempoolEntry} {evicted : List Hash256}
    (hroom : MakesRoom candidate pool evicted) (h : Closed chainUtxo pool) (hsound : Sound pool) :
    Closed chainUtxo (pool.removeEntries evicted) := by
  induction hroom with
  | fits _ => exact h
  | evict _ _ ih =>
      rw [removeEntries_append]
      exact ih (h.removeEntryAndDescendants hsound _) (hsound.removeEntries _)

/-- Making room keeps a pool closed whether or not it succeeds. -/
theorem Closed.makeRoomFor (h : Closed chainUtxo pool) (hsound : Sound pool)
    (candidate : MempoolEntry) : Closed chainUtxo (pool.makeRoomFor candidate).2 := by
  have hloop : ∀ (n : ℕ) (pool : Mempool), Closed chainUtxo pool → Sound pool →
      Closed chainUtxo (makeRoomLoop candidate n pool).2 := by
    intro n
    induction n with
    | zero => exact fun _ h _ ↦ h
    | succ n ih =>
        intro pool h hsound
        unfold makeRoomLoop
        split
        · split
          · exact h
          · split
            · exact ih _ (h.removeEntryAndDescendants hsound _) (hsound.removeEntries _)
            · exact h
        · exact h
  exact hloop _ pool h hsound

/-! ## Admissions -/

/-- No round that makes room for the transaction evicts an entry it spends from,
unless what it spends is unspent on the chain. -/
def KeepsParents (chainUtxo : UtxoSet) (pool : Mempool) (tx : Transaction) : Prop :=
  ∀ fee candidate evicted, pool.validateCandidate tx chainUtxo = .ok (fee, candidate) →
    MakesRoom candidate pool evicted → ∀ input ∈ tx.inputs,
      (chainUtxo.lookup input.outPoint).isSome ∨ input.previousOutput ∉ evicted

/-- What a candidate spends is unspent on the chain or an output of an entry. -/
theorem Candidate.parent {tx : Transaction} {candidate : MempoolEntry}
    (hc : Candidate pool tx chainUtxo candidate) (hsound : Sound pool) {input : TxInput}
    (hinput : input ∈ tx.inputs) :
    (chainUtxo.lookup input.outPoint).isSome ∨
      ∃ parent, pool.entries.lookup input.previousOutput = some parent ∧
        parent.tx.HasOutput input.outPoint := by
  have hview := UtxoSet.validateTransaction_inputs hc.not_coinbase hc.valid input hinput
  obtain ⟨entry, hentry⟩ := Option.isSome_iff_exists.mp hview
  rw [buildValidationView, UtxoSet.applyTransactions_eq_applyAll] at hentry
  rcases lookup_applyAll_cases _ _ hentry with hchain | ⟨patch, hpatch, hwrite⟩
  · exact Or.inl (by rw [hchain]; rfl)
  · obtain ⟨tx', htx', rfl⟩ := List.mem_map.mp hpatch
    obtain ⟨parent, hordered, rfl⟩ := List.mem_map.mp htx'
    obtain ⟨txid, hparent⟩ := mem_ordered.mp hordered
    have houtput : parent.tx.HasOutput input.outPoint := hwrite
    have htxid : input.previousOutput = txid :=
      houtput.txid_eq.trans (hsound.key txid parent hparent)
    exact Or.inr ⟨parent, htxid ▸ hparent, houtput⟩

/-- Inserting the candidate after the evictions keeps a closed pool closed
exactly when its parents are still there. -/
theorem Candidate.insert_closed_iff {tx : Transaction} {candidate : MempoolEntry}
    (hc : Candidate pool tx chainUtxo candidate) (hsound : Sound pool)
    {evicted : List Hash256} (h : Closed chainUtxo (pool.removeEntries evicted)) :
    Closed chainUtxo ((pool.removeEntries evicted).insertEntry tx.txid candidate) ↔
      ∀ input ∈ tx.inputs,
        (chainUtxo.lookup input.outPoint).isSome ∨ input.previousOutput ∉ evicted := by
  have hlookup : ∀ key, ((pool.removeEntries evicted).insertEntry tx.txid
      candidate).entries.lookup key =
        if key = tx.txid then some candidate
        else if key ∈ evicted then none else pool.entries.lookup key := by
    intro key
    rw [← lookup_removeEntries]
    exact EntryMap.lookup_insert_ite _ _ _ _
  -- A resident is not the candidate, whose id is new to the pool.
  have hresident : ∀ key parent, pool.entries.lookup key = some parent → key ≠ tx.txid := by
    rintro key parent hparent rfl
    rw [hc.fresh] at hparent
    cases hparent
  constructor
  · intro hclosed input hinput
    rcases hclosed tx.txid candidate (by rw [hlookup, if_pos rfl]) input
      (by rwa [hc.tx_eq]) with hchain | ⟨parent, hparent, hseq, -⟩
    · exact Or.inl hchain
    · refine Or.inr fun hgone ↦ ?_
      rw [hlookup] at hparent
      by_cases hown : input.previousOutput = tx.txid
      · rw [if_pos hown] at hparent
        rw [Option.some.inj hparent] at hseq
        exact hseq.false
      · rw [if_neg hown, if_pos hgone] at hparent
        cases hparent
  · intro hparents txid entry hentry input hinput
    rw [hlookup] at hentry
    split at hentry
    · obtain rfl := Option.some.inj hentry
      rw [hc.tx_eq] at hinput
      rcases hparents input hinput with hchain | hkept
      · exact Or.inl hchain
      · apply (hc.parent hsound hinput).imp_right
        rintro ⟨parent, hparent, houtput⟩
        refine ⟨parent, ?_, ?_, houtput⟩
        · rw [hlookup, if_neg (hresident _ _ hparent), if_neg hkept, hparent]
        · rw [hc.seq_eq]
          exact hsound.seq_lt _ _ hparent
    · rw [← lookup_removeEntries] at hentry
      apply (h txid entry hentry input hinput).imp_right
      rintro ⟨parent, hparent, hseq, houtput⟩
      refine ⟨parent, ?_, hseq, houtput⟩
      rw [lookup_removeEntries] at hparent
      have hother : input.previousOutput ≠ tx.txid := by
        intro heq
        rw [heq, hc.fresh, ite_self] at hparent
        cases hparent
      rw [hlookup, if_neg hother, hparent]

/-- An admission keeps a closed pool closed exactly when it keeps the parents
of what it admits. -/
theorem Closed.acceptTx_iff (h : Closed chainUtxo pool) (hsound : Sound pool)
    (tx : Transaction) :
    Closed chainUtxo (pool.acceptTx tx chainUtxo).2 ↔ KeepsParents chainUtxo pool tx := by
  unfold Mempool.acceptTx KeepsParents
  cases hvalid : pool.validateCandidate tx chainUtxo with
  | error e => simpa using h
  | ok pair =>
      obtain ⟨fee, candidate⟩ := pair
      have hc := validateCandidate_ok hvalid
      have hmade := h.makeRoomFor hsound candidate
      simp only
      cases hroom : pool.makeRoomFor candidate with
      | mk result made =>
          rw [hroom] at hmade
          cases result with
          | error e =>
              apply iff_of_true hmade
              intro fee' candidate' evicted heq hmakes
              obtain ⟨-, rfl⟩ := Prod.mk.inj (Except.ok.inj heq)
              rw [makeRoomFor_ok_iff.mpr ⟨evicted, hmakes, rfl⟩] at hroom
              cases hroom
          | ok _ =>
              obtain ⟨evicted, hmakes, rfl⟩ := makeRoomFor_ok_iff.mp hroom
              apply (hc.insert_closed_iff hsound hmade).trans
              constructor
              · intro hparents fee' candidate' evicted' heq hmakes'
                obtain ⟨-, rfl⟩ := Prod.mk.inj (Except.ok.inj heq)
                rwa [← hmakes.unique hmakes']
              · exact fun hkeeps ↦ hkeeps fee candidate evicted rfl hmakes

/-! ## Runs -/

/-- The pool after the transactions were offered one after the other. -/
def acceptAll (chainUtxo : UtxoSet) (txs : List Transaction) (pool : Mempool) : Mempool :=
  txs.foldl (fun pool tx ↦ (pool.acceptTx tx chainUtxo).2) pool

theorem Sound.acceptAll (h : Sound pool) (txs : List Transaction) :
    Sound (pool.acceptAll chainUtxo txs) := by
  induction txs generalizing pool with
  | nil => exact h
  | cons tx rest ih => exact ih (h.acceptTx tx chainUtxo)

/-- Starting empty, a pool is closed after every admission of a run exactly when
every admission keeps the parents of what it admits. -/
theorem acceptAll_closed_iff (limits : MempoolLimits) (chainUtxo : UtxoSet)
    (txs : List Transaction) :
    (∀ done, done <+: txs → Closed chainUtxo ((new limits).acceptAll chainUtxo done)) ↔
      ∀ done tx, done ++ [tx] <+: txs →
        KeepsParents chainUtxo ((new limits).acceptAll chainUtxo done) tx := by
  have hsound : ∀ done, Sound ((new limits).acceptAll chainUtxo done) :=
    fun done ↦ (new_sound limits).acceptAll done
  have hsnoc : ∀ done tx, (new limits).acceptAll chainUtxo (done ++ [tx]) =
      (((new limits).acceptAll chainUtxo done).acceptTx tx chainUtxo).2 :=
    fun done tx ↦ List.foldl_append
  constructor
  · intro hclosed done tx hpre
    rw [← (hclosed done ((List.prefix_append done [tx]).trans hpre)).acceptTx_iff
      (hsound done), ← hsnoc]
    exact hclosed _ hpre
  · intro hkeeps done
    induction done using List.reverseRecOn with
    | nil => exact fun _ txid entry hentry ↦ by simp [acceptAll, new] at hentry
    | append_singleton done tx ih =>
        intro hpre
        rw [hsnoc, (ih ((List.prefix_append done [tx]).trans hpre)).acceptTx_iff (hsound done)]
        exact hkeeps done tx hpre

end Mempool

end Bitrst

namespace Bitrst.Sample

def parentTx : Transaction := spend coinId0 []

def childTx : Transaction := spend parentTx.txid []

/-- A pool for one transaction admits the parent, and then the child in its place. -/
theorem child_evicts_parent : ¬ ∀ done, done <+: [parentTx, childTx] →
    Mempool.Closed start.utxo ((Mempool.new ⟨1, 1000⟩).acceptAll start.utxo done) := by
  intro hclosed
  have hentry : ((Mempool.new ⟨1, 1000⟩).acceptAll start.utxo
      [parentTx, childTx]).entries.lookup childTx.txid = some ⟨childTx, 0, 60, 1⟩ := by
    decide +kernel
  have hgone : ((Mempool.new ⟨1, 1000⟩).acceptAll start.utxo
      [parentTx, childTx]).entries.lookup parentTx.txid = none := by decide +kernel
  rcases hclosed _ (List.prefix_refl _) _ _ hentry _ List.mem_cons_self with
    hchain | ⟨parent, hparent, -⟩
  · exact absurd hchain (by decide +kernel)
  · exact absurd (hgone.symm.trans hparent) (by simp)

/-- The parent and its child. -/
def family : Mempool := (Mempool.new ⟨10, 1000⟩).acceptAll start.utxo [parentTx, childTx]

theorem family_entries : family.entries.entries =
    [⟨childTx.txid, childTx, 0, 60, 1⟩, ⟨parentTx.txid, parentTx, 0, 60, 0⟩] := by decide +kernel

end Bitrst.Sample
