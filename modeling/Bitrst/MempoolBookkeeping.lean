import Bitrst.Mempool

/-!
# Bookkeeping of the transaction pool

The entries, the recorded spends, the byte count and the sequence numbers of a
pool agree.  Removing entries keeps this, whatever entries they are, and so
does an admission that passed its checks.
-/

namespace Bitrst

open Support

variable [Crypto]

namespace Mempool

variable {pool : Mempool}

/-- The total size of the entries. -/
def entryBytes (pool : Mempool) : ℕ := (pool.entries.entries.map fun entry ↦ entry.2.size).sum

/-- The fields of the pool agree with its entries. -/
structure Sound (pool : Mempool) : Prop where
  key : ∀ txid entry, pool.entries.lookup txid = some entry → entry.tx.txid = txid
  seq_lt : ∀ txid entry, pool.entries.lookup txid = some entry → entry.seq < pool.nextSeq
  seq_inj : ∀ txid entry txid' entry', pool.entries.lookup txid = some entry →
    pool.entries.lookup txid' = some entry' → entry.seq = entry'.seq → txid = txid'
  spends_iff : ∀ outpoint txid, pool.spends.lookup outpoint = some txid ↔
    ∃ entry, pool.entries.lookup txid = some entry ∧
      outpoint ∈ entry.tx.inputs.map TxInput.outPoint
  bytes : pool.totalBytes = pool.entryBytes

omit [Crypto] in
theorem mem_ordered {entry : MempoolEntry} :
    entry ∈ pool.ordered ↔ ∃ txid, pool.entries.lookup txid = some entry := by
  unfold ordered
  rw [List.mem_insertionSort, List.mem_map]
  constructor
  · rintro ⟨⟨txid, found⟩, hmem, rfl⟩
    exact ⟨txid, EntryMap.mem_entries_iff.mp hmem⟩
  · rintro ⟨txid, hentry⟩
    exact ⟨⟨txid, entry⟩, EntryMap.mem_entries_iff.mpr hentry, rfl⟩

theorem new_sound (limits : MempoolLimits) : Sound (new limits) where
  key := by simp [new]
  seq_lt := by simp [new]
  seq_inj := by simp [new]
  spends_iff := by simp [new]
  bytes := rfl

/-! ## Removing entries -/

omit [Crypto] in
theorem lookup_removeEntry (pool : Mempool) (txid key : Hash256) :
    (pool.removeEntry txid).entries.lookup key =
      if key = txid then none else pool.entries.lookup key := by
  unfold removeEntry
  split
  · rename_i hnone
    split
    · rename_i heq
      rw [heq, hnone]
    · rfl
  · exact EntryMap.lookup_erase_ite _ _ _

omit [Crypto] in
theorem entryBytes_erase {txid : Hash256} {entry : MempoolEntry}
    (hentry : pool.entries.lookup txid = some entry) :
    ((pool.entries.erase txid).entries.map fun e ↦ e.2.size).sum + entry.size =
      pool.entryBytes := by
  have hmem : txid ∈ pool.entries.entries.keys :=
    List.mem_keys_of_mem (EntryMap.mem_entries_iff.mpr hentry)
  obtain ⟨found, front, back, -, hsplit, herase⟩ := List.exists_of_kerase hmem
  have hfound : found = entry := by
    have hin : (⟨txid, found⟩ : Sigma fun _ : Hash256 ↦ MempoolEntry) ∈ pool.entries.entries := by
      rw [hsplit]
      simp
    rw [EntryMap.mem_entries_iff, hentry] at hin
    exact (Option.some.inj hin).symm
  subst hfound
  unfold entryBytes
  rw [hsplit]
  change ((List.kerase txid pool.entries.entries).map _).sum + _ = _
  rw [herase]
  simp only [List.map_append, List.map_cons, List.sum_append, List.sum_cons]
  omega

theorem Sound.removeEntry (h : Sound pool) (txid : Hash256) : Sound (pool.removeEntry txid) := by
  have hlookup := fun key ↦ lookup_removeEntry pool txid key
  have hseq : (pool.removeEntry txid).nextSeq = pool.nextSeq := by
    unfold Mempool.removeEntry
    split <;> rfl
  have hold : ∀ key entry, (pool.removeEntry txid).entries.lookup key = some entry →
      pool.entries.lookup key = some entry := by
    intro key entry hentry
    rw [hlookup] at hentry
    split at hentry
    · cases hentry
    · exact hentry
  refine ⟨fun key entry hentry ↦ h.key key entry (hold key entry hentry), ?_, ?_, ?_, ?_⟩
  · intro key entry hentry
    rw [hseq]
    exact h.seq_lt key entry (hold key entry hentry)
  · exact fun key entry key' entry' hentry hentry' ↦
      h.seq_inj key entry key' entry' (hold _ _ hentry) (hold _ _ hentry')
  · intro outpoint owner
    simp only [hlookup]
    cases hentry : pool.entries.lookup txid with
    | none =>
        have hsame : pool.removeEntry txid = pool := by
          rw [Mempool.removeEntry, hentry]
        rw [hsame, h.spends_iff]
        by_cases heq : owner = txid
        · subst heq
          simp [hentry]
        · simp [heq]
    | some entry =>
        have hspends : (pool.removeEntry txid).spends =
            pool.spends.retain fun _ owner ↦ owner ≠ txid := by
          rw [Mempool.removeEntry, hentry]
        rw [hspends, EntryMap.lookup_retain, h.spends_iff]
        by_cases heq : owner = txid
        · simp [heq]
        · simp [heq]
  · cases hentry : pool.entries.lookup txid with
    | none =>
        have hsame : pool.removeEntry txid = pool := by
          rw [Mempool.removeEntry, hentry]
        rw [hsame, h.bytes]
    | some entry =>
        have hbytes := entryBytes_erase hentry
        rw [Mempool.removeEntry, hentry]
        change pool.totalBytes - entry.size = ((pool.entries.erase txid).entries.map _).sum
        rw [h.bytes, ← hbytes, Nat.add_sub_cancel]

omit [Crypto] in
theorem lookup_removeEntries (pool : Mempool) (txids : List Hash256) (key : Hash256) :
    (pool.removeEntries txids).entries.lookup key =
      if key ∈ txids then none else pool.entries.lookup key := by
  induction txids generalizing pool with
  | nil => simp [removeEntries]
  | cons txid rest ih =>
      change ((pool.removeEntry txid).removeEntries rest).entries.lookup key = _
      rw [ih, lookup_removeEntry]
      by_cases hkey : key = txid <;> by_cases hrest : key ∈ rest <;> simp [hkey, hrest]

omit [Crypto] in
/-- What is left are the entries that are not removed. -/
theorem lookup_removeEntries_iff {txids : List Hash256} {key : Hash256} {entry : MempoolEntry} :
    (pool.removeEntries txids).entries.lookup key = some entry ↔
      key ∉ txids ∧ pool.entries.lookup key = some entry := by
  rw [lookup_removeEntries]
  split <;> simp_all

theorem Sound.removeEntries (h : Sound pool) (txids : List Hash256) :
    Sound (pool.removeEntries txids) := by
  induction txids generalizing pool with
  | nil => exact h
  | cons txid rest ih => exact ih (h.removeEntry txid)

omit [Crypto] in
theorem removeEntries_append (pool : Mempool) (txids txids' : List Hash256) :
    pool.removeEntries (txids ++ txids') = (pool.removeEntries txids).removeEntries txids' :=
  List.foldl_append

omit [Crypto] in
@[simp] theorem removeEntry_nextSeq (pool : Mempool) (txid : Hash256) :
    (pool.removeEntry txid).nextSeq = pool.nextSeq := by
  unfold removeEntry
  split <;> rfl

omit [Crypto] in
@[simp] theorem removeEntry_limits (pool : Mempool) (txid : Hash256) :
    (pool.removeEntry txid).limits = pool.limits := by
  unfold removeEntry
  split <;> rfl

omit [Crypto] in
@[simp] theorem removeEntries_nextSeq (pool : Mempool) (txids : List Hash256) :
    (pool.removeEntries txids).nextSeq = pool.nextSeq := by
  induction txids generalizing pool with
  | nil => rfl
  | cons txid rest ih => exact (ih (pool.removeEntry txid)).trans (removeEntry_nextSeq pool txid)

omit [Crypto] in
@[simp] theorem removeEntries_limits (pool : Mempool) (txids : List Hash256) :
    (pool.removeEntries txids).limits = pool.limits := by
  induction txids generalizing pool with
  | nil => rfl
  | cons txid rest ih => exact (ih (pool.removeEntry txid)).trans (removeEntry_limits pool txid)

omit [Crypto] in
theorem len_removeEntry_le (pool : Mempool) (txid : Hash256) :
    (pool.removeEntry txid).len ≤ pool.len := by
  unfold removeEntry
  split
  · exact Nat.le_refl _
  · exact (List.kerase_sublist txid pool.entries.entries).length_le

omit [Crypto] in
theorem len_removeEntry_lt {txid : Hash256} {entry : MempoolEntry}
    (hentry : pool.entries.lookup txid = some entry) :
    (pool.removeEntry txid).len < pool.len := by
  have herase := EntryMap.length_erase_add_one hentry
  unfold removeEntry len
  rw [hentry]
  change (pool.entries.erase txid).entries.length < _
  omega

omit [Crypto] in
theorem len_removeEntries_le (pool : Mempool) (txids : List Hash256) :
    (pool.removeEntries txids).len ≤ pool.len := by
  induction txids generalizing pool with
  | nil => exact Nat.le_refl _
  | cons txid rest ih => exact (ih _).trans (len_removeEntry_le pool txid)

/-! ## Admitting a candidate -/

/-- What passed checks establish about a candidate. -/
structure Candidate (pool : Mempool) (tx : Transaction) (chainUtxo : UtxoSet)
    (candidate : MempoolEntry) : Prop where
  tx_eq : candidate.tx = tx
  size_eq : candidate.size = tx.serializedSize
  seq_eq : candidate.seq = pool.nextSeq
  not_coinbase : tx.isCoinbase = false
  fresh : pool.entries.lookup tx.txid = none
  no_conflict : ∀ input ∈ tx.inputs, pool.spends.lookup input.outPoint = none
  valid : UtxoSet.validateTransaction (pool.buildValidationView chainUtxo) tx = .ok ()

omit [Crypto] in
theorem checkMempoolConflicts_ok {inputs : List TxInput}
    (h : pool.checkMempoolConflicts inputs = .ok ()) :
    ∀ input ∈ inputs, pool.spends.lookup input.outPoint = none := by
  induction inputs with
  | nil => simp
  | cons input rest ih =>
      unfold checkMempoolConflicts at h
      split at h
      · cases h
      · rename_i hnone
        intro other hother
        rcases List.mem_cons.mp hother with rfl | hother
        · exact hnone
        · exact ih h other hother

omit [Crypto] in
theorem validateTxStructure_ok {tx : Transaction} {size : ℕ}
    (h : validateTxStructure tx = .ok size) :
    size = tx.serializedSize ∧ (tx.isCoinbase = false → tx.inputs ≠ []) := by
  unfold validateTxStructure at h
  simp only at h
  split at h
  · cases h
  · split at h
    · cases h
    · split at h
      · cases h
      · rename_i hinputs
        split at h
        · cases h
        · split at h
          · cases h
          · refine ⟨(Except.ok.inj h).symm, ?_⟩
            intro hcoinbase hnil
            simp [hcoinbase, hnil] at hinputs

theorem validateCandidate_ok {tx : Transaction} {chainUtxo : UtxoSet} {fee : UInt64}
    {candidate : MempoolEntry}
    (h : pool.validateCandidate tx chainUtxo = .ok (fee, candidate)) :
    Candidate pool tx chainUtxo candidate := by
  unfold validateCandidate at h
  split at h
  · cases h
  · rename_i size hsize
    split at h
    · cases h
    · rename_i hcoinbase
      split at h
      · cases h
      · rename_i hfresh
        split at h
        · cases h
        · split at h
          · cases h
          · rename_i hconflicts
            simp only at h
            split at h
            · cases h
            · rename_i hvalid
              split at h
              · cases h
              · split at h
                · cases h
                · obtain ⟨-, rfl⟩ := Prod.mk.inj (Except.ok.inj h)
                  exact ⟨rfl, (validateTxStructure_ok hsize).1, rfl, by simpa using hcoinbase,
                    by simpa using hfresh, checkMempoolConflicts_ok hconflicts, hvalid⟩

omit [Crypto] in
theorem lookup_insertSpends (inputs : List TxInput) (txid : Hash256)
    (spends : EntryMap OutPoint Hash256) (outpoint : OutPoint) :
    (inputs.foldl (fun spends input ↦ AList.insert input.outPoint txid spends) spends).lookup
        outpoint =
      if outpoint ∈ inputs.map TxInput.outPoint then some txid else spends.lookup outpoint := by
  induction inputs generalizing spends with
  | nil => simp
  | cons input rest ih =>
      rw [List.foldl_cons, ih, EntryMap.lookup_insert_ite]
      by_cases hrest : outpoint ∈ rest.map TxInput.outPoint <;>
        by_cases hinput : outpoint = input.outPoint <;> simp [hrest, hinput]

/-- Inserting a new entry that conflicts with none keeps the books. -/
theorem Sound.insertEntry (h : Sound pool) {txid : Hash256} {entry : MempoolEntry}
    (hkey : entry.tx.txid = txid) (hseq : entry.seq = pool.nextSeq)
    (hfresh : pool.entries.lookup txid = none)
    (hconflict : ∀ input ∈ entry.tx.inputs, pool.spends.lookup input.outPoint = none) :
    Sound (pool.insertEntry txid entry) := by
  have hlookup : ∀ key, (pool.insertEntry txid entry).entries.lookup key =
      if key = txid then some entry else pool.entries.lookup key :=
    fun key ↦ EntryMap.lookup_insert_ite _ _ _ _
  refine ⟨?_, ?_, ?_, ?_, ?_⟩
  · intro key found hfound
    rw [hlookup] at hfound
    split at hfound
    · rename_i heq
      rw [← Option.some.inj hfound, hkey, heq]
    · exact h.key key found hfound
  · intro key found hfound
    change found.seq < pool.nextSeq + 1
    rw [hlookup] at hfound
    split at hfound
    · rw [← Option.some.inj hfound, hseq]
      exact Nat.lt_succ_self _
    · exact Nat.lt_succ_of_lt (h.seq_lt key found hfound)
  · intro key found key' found' hfound hfound' heq
    rw [hlookup] at hfound hfound'
    split at hfound <;> split at hfound'
    · rename_i hleft hright
      rw [hleft, hright]
    · rw [← Option.some.inj hfound, hseq] at heq
      exact absurd heq.symm (h.seq_lt _ _ hfound').ne
    · rw [← Option.some.inj hfound', hseq] at heq
      exact absurd heq (h.seq_lt _ _ hfound).ne
    · exact h.seq_inj _ _ _ _ hfound hfound' heq
  · intro outpoint owner
    change (entry.tx.inputs.foldl (fun spends input ↦ AList.insert input.outPoint txid spends)
      pool.spends).lookup outpoint = some owner ↔ _
    rw [lookup_insertSpends]
    simp only [hlookup]
    by_cases hmem : outpoint ∈ entry.tx.inputs.map TxInput.outPoint
    · have hnone : pool.spends.lookup outpoint = none := by
        obtain ⟨input, hinput, rfl⟩ := List.mem_map.mp hmem
        exact hconflict input hinput
      rw [if_pos hmem]
      by_cases howner : owner = txid
      · subst howner
        simpa using List.mem_map.mp hmem
      · have hnot : ¬ ∃ found, pool.entries.lookup owner = some found ∧
            outpoint ∈ found.tx.inputs.map TxInput.outPoint := by
          rw [← h.spends_iff, hnone]
          simp
        simp only [if_neg howner]
        exact ⟨fun heq ↦ (howner (Option.some.inj heq).symm).elim, fun hfound ↦ (hnot hfound).elim⟩
    · rw [if_neg hmem, h.spends_iff]
      by_cases howner : owner = txid
      · subst howner
        simp only [hfresh, if_true]
        constructor
        · rintro ⟨found, hfound, -⟩
          cases hfound
        · rintro ⟨found, hfound, hin⟩
          rw [← Option.some.inj hfound] at hin
          exact (hmem hin).elim
      · simp [howner]
  · change pool.totalBytes + entry.size = ((pool.entries.insert txid entry).entries.map _).sum
    rw [AList.entries_insert_of_notMem (AList.lookup_eq_none.mp hfresh), List.map_cons,
      List.sum_cons, h.bytes, entryBytes, Nat.add_comm]

omit [Crypto] in
/-- Making room removes entries and nothing else. -/
theorem makeRoomFor_removes (pool : Mempool) (candidate : MempoolEntry) :
    ∃ txids, (pool.makeRoomFor candidate).2 = pool.removeEntries txids := by
  have hloop : ∀ (n : ℕ) (pool : Mempool),
      ∃ txids, (makeRoomLoop candidate n pool).2 = pool.removeEntries txids := by
    intro n
    induction n with
    | zero => exact fun pool ↦ ⟨[], rfl⟩
    | succ n ih =>
        intro pool
        unfold makeRoomLoop
        split
        · split
          · exact ⟨[], rfl⟩
          · rename_i victim _
            split
            · obtain ⟨txids, htxids⟩ := ih (pool.removeEntryAndDescendants victim)
              exact ⟨(victim :: pool.descendantsOf victim) ++ txids, by
                rw [htxids, removeEntryAndDescendants, removeEntries_append]⟩
            · exact ⟨[], rfl⟩
        · exact ⟨[], rfl⟩
  exact hloop _ _

/-- An admission that fails has at most evicted entries. -/
theorem acceptTx_cases (pool : Mempool) (tx : Transaction) (chainUtxo : UtxoSet) :
    (∃ e txids, pool.acceptTx tx chainUtxo = (.error e, pool.removeEntries txids)) ∨
      ∃ fee candidate txids, pool.validateCandidate tx chainUtxo = .ok (fee, candidate) ∧
        pool.makeRoomFor candidate = (.ok (), pool.removeEntries txids) ∧
        pool.acceptTx tx chainUtxo = (.ok ⟨tx.txid, fee, candidate.size⟩,
          (pool.removeEntries txids).insertEntry tx.txid candidate) := by
  unfold acceptTx
  cases hvalid : pool.validateCandidate tx chainUtxo with
  | error e => exact Or.inl ⟨e, [], rfl⟩
  | ok pair =>
      obtain ⟨fee, candidate⟩ := pair
      obtain ⟨txids, htxids⟩ := makeRoomFor_removes pool candidate
      simp only
      cases hroom : pool.makeRoomFor candidate with
      | mk result made =>
          rw [hroom] at htxids
          simp only at htxids
          subst htxids
          cases result with
          | error e => exact Or.inl ⟨e, txids, rfl⟩
          | ok _ => exact Or.inr ⟨fee, candidate, txids, rfl, hroom, rfl⟩

theorem Candidate.insert_sound {tx : Transaction} {chainUtxo : UtxoSet}
    {candidate : MempoolEntry} (hc : Candidate pool tx chainUtxo candidate) (h : Sound pool)
    (txids : List Hash256) :
    Sound ((pool.removeEntries txids).insertEntry tx.txid candidate) := by
  have hremoved := h.removeEntries txids
  refine hremoved.insertEntry (by rw [hc.tx_eq]) (by rw [hc.seq_eq, removeEntries_nextSeq]) ?_ ?_
  · rw [lookup_removeEntries, hc.fresh, ite_self]
  · intro input hinput
    rw [hc.tx_eq] at hinput
    have hnone := hc.no_conflict input hinput
    cases hspend : (pool.removeEntries txids).spends.lookup input.outPoint with
    | none => rfl
    | some owner =>
        obtain ⟨entry, hentry, hmem⟩ := (hremoved.spends_iff _ _).mp hspend
        obtain ⟨-, hentry⟩ := lookup_removeEntries_iff.mp hentry
        rw [(h.spends_iff _ _).mpr ⟨entry, hentry, hmem⟩] at hnone
        cases hnone

theorem Sound.acceptTx (h : Sound pool) (tx : Transaction) (chainUtxo : UtxoSet) :
    Sound (pool.acceptTx tx chainUtxo).2 := by
  rcases acceptTx_cases pool tx chainUtxo with ⟨e, txids, heq⟩ | ⟨fee, candidate, txids, hvalid, -,
    heq⟩
  · rw [heq]
    exact h.removeEntries txids
  · rw [heq]
    exact (validateCandidate_ok hvalid).insert_sound h txids

end Mempool

end Bitrst
