import Bitrst.MempoolSync

/-!
# Runs of the transaction pool

Every call on a pool is a sequence of moves: some entries are removed, or a
candidate that passed its checks is inserted after room was made for it.  What
the two moves keep holds after every run of calls, whatever unspent outputs the
calls are given.

The pool counts its admissions; the source keeps the count in a `u64` that wraps.
-/

namespace Bitrst

open Support

variable [Crypto]

namespace Mempool

variable {pool pool' : Mempool} {chainUtxo : UtxoSet}

/-! ## Moves -/

/-- The second pool is reached from the first by removals and admissions. -/
inductive Moves (pool : Mempool) : Mempool → Prop
  | refl : Moves pool pool
  | remove {next : Mempool} (h : Moves pool next) (txids : List Hash256) :
      Moves pool (next.removeEntries txids)
  | accept {next : Mempool} (h : Moves pool next) {tx : Transaction} {chainUtxo : UtxoSet}
      {fee : UInt64} {candidate : MempoolEntry} {evicted : List Hash256}
      (hvalid : next.validateCandidate tx chainUtxo = .ok (fee, candidate))
      (hroom : next.makeRoomFor candidate = (.ok (), next.removeEntries evicted)) :
      Moves pool ((next.removeEntries evicted).insertEntry tx.txid candidate)

theorem Moves.trans {last : Mempool} (h : Moves pool pool') (h' : Moves pool' last) :
    Moves pool last := by
  induction h' with
  | refl => exact h
  | remove _ txids ih => exact ih.remove txids
  | accept _ hvalid hroom ih => exact ih.accept hvalid hroom

theorem acceptTx_moves (pool : Mempool) (tx : Transaction) (chainUtxo : UtxoSet) :
    Moves pool (pool.acceptTx tx chainUtxo).2 := by
  rcases acceptTx_cases pool tx chainUtxo with
    ⟨e, txids, heq⟩ | ⟨fee, candidate, txids, hvalid, hroom, heq⟩
  · rw [heq]
    exact Moves.refl.remove txids
  · rw [heq]
    exact Moves.refl.accept hvalid hroom

theorem removeForBlocks_moves (blocks : List Block) (pool : Mempool) :
    Moves pool (blocks.foldl removeForBlock pool) := by
  rw [foldl_removeForBlock]
  exact Moves.refl.remove _

theorem revalidatePool_moves (pool : Mempool) (chainUtxo : UtxoSet) :
    Moves pool (pool.revalidatePool chainUtxo) := by
  have hloop : ∀ (n : ℕ) (pool : Mempool), Moves pool (revalidateLoop chainUtxo n pool) := by
    intro n
    induction n with
    | zero => exact fun _ ↦ .refl
    | succ n ih =>
        intro pool
        unfold revalidateLoop
        simp only
        split
        · exact .refl
        · exact (Moves.refl.remove _).trans (ih _)
  exact hloop _ pool

theorem restorePass_moves (pending : List Transaction) (pool : Mempool) :
    Moves pool (restorePass chainUtxo pending pool).2 := by
  induction pending generalizing pool with
  | nil => exact .refl
  | cons tx rest ih =>
      rw [restorePass_cons]
      exact (acceptTx_moves pool tx chainUtxo).trans (ih _)

theorem restoreCandidates_moves (pool : Mempool) (candidates : List Transaction)
    (chainUtxo : UtxoSet) : Moves pool (pool.restoreCandidates candidates chainUtxo) := by
  have hloop : ∀ (n : ℕ) (pending : List Transaction) (pool : Mempool),
      Moves pool (restoreLoop chainUtxo n pending pool) := by
    intro n
    induction n with
    | zero => exact fun _ _ ↦ .refl
    | succ n ih =>
        intro pending pool
        have hpass : Moves pool (restorePass chainUtxo pending pool).2 :=
          restorePass_moves pending pool
        unfold restoreLoop
        simp only
        split
        · exact hpass
        · exact hpass.trans (ih _ _)
  exact hloop _ candidates pool

theorem synchronizeToChain_moves (pool : Mempool) (chainUtxo : UtxoSet)
    (connected disconnected : List Block) :
    Moves pool (pool.synchronizeToChain chainUtxo connected disconnected) :=
  ((removeForBlocks_moves connected pool).trans (revalidatePool_moves _ chainUtxo)).trans
    (restoreCandidates_moves _ _ chainUtxo)

theorem resyncToActiveChain_moves (pool : Mempool) (chain : Chain) (since : ℕ) :
    Moves pool (pool.resyncToActiveChain chain since).2 := by
  unfold resyncToActiveChain
  cases chain.recoveryDisconnectedBlocks since with
  | error e => exact .refl
  | ok disconnected =>
      exact ((removeForBlocks_moves _ pool).trans (revalidatePool_moves _ chain.utxo)).trans
        (restoreCandidates_moves _ _ chain.utxo)

theorem serveTransaction_moves (pool : Mempool) (txid : Hash256) (chainUtxo : UtxoSet) :
    Moves pool (pool.serveTransaction txid chainUtxo).2 := by
  unfold serveTransaction
  cases pool.getTransaction txid with
  | none => exact .refl
  | some tx =>
      simp only
      split
      · exact .refl
      · exact Moves.refl.remove [txid]

/-! ## Calls -/

/-- A call on the pool, with the arguments it is given. -/
inductive Call
  | acceptTx (tx : Transaction) (chainUtxo : UtxoSet)
  | removeForBlock (block : Block)
  | synchronizeToChain (chainUtxo : UtxoSet) (connected disconnected : List Block)
  | applyChainEvents (events : List ChainEvent) (chain : Chain)
  | resyncToActiveChain (chain : Chain) (sinceEventSeq : ℕ)
  | serveTransaction (txid : Hash256) (chainUtxo : UtxoSet)

/-- The pool that a call leaves behind. -/
def Call.run (pool : Mempool) : Call → Mempool
  | .acceptTx tx chainUtxo => (pool.acceptTx tx chainUtxo).2
  | .removeForBlock block => pool.removeForBlock block
  | .synchronizeToChain chainUtxo connected disconnected =>
      pool.synchronizeToChain chainUtxo connected disconnected
  | .applyChainEvents events chain => pool.applyChainEvents events chain
  | .resyncToActiveChain chain sinceEventSeq => (pool.resyncToActiveChain chain sinceEventSeq).2
  | .serveTransaction txid chainUtxo => (pool.serveTransaction txid chainUtxo).2

/-- The pool after a sequence of calls. -/
def runCalls (calls : List Call) (pool : Mempool) : Mempool := calls.foldl Call.run pool

theorem runCalls_append (calls calls' : List Call) (pool : Mempool) :
    runCalls (calls ++ calls') pool = runCalls calls' (runCalls calls pool) :=
  List.foldl_append

theorem Call.run_moves (call : Call) (pool : Mempool) : Moves pool (call.run pool) := by
  cases call with
  | acceptTx tx chainUtxo => exact acceptTx_moves pool tx chainUtxo
  | removeForBlock block => exact Moves.refl.remove _
  | synchronizeToChain chainUtxo connected disconnected =>
      exact synchronizeToChain_moves pool chainUtxo connected disconnected
  | applyChainEvents events chain => exact synchronizeToChain_moves pool chain.utxo _ _
  | resyncToActiveChain chain sinceEventSeq =>
      exact resyncToActiveChain_moves pool chain sinceEventSeq
  | serveTransaction txid chainUtxo => exact serveTransaction_moves pool txid chainUtxo

theorem runCalls_moves (calls : List Call) (pool : Mempool) : Moves pool (runCalls calls pool) := by
  induction calls generalizing pool with
  | nil => exact .refl
  | cons call rest ih => exact (call.run_moves pool).trans (ih _)

/-! ## What the moves keep -/

/-- The sizes of the entries are those of their transactions, and the pool is
within its limits. -/
structure Bounded (pool : Mempool) : Prop where
  size_eq : ∀ txid entry, pool.entries.lookup txid = some entry →
    entry.size = entry.tx.serializedSize
  count_le : pool.len ≤ pool.limits.maxTxCount
  bytes_le : pool.totalBytes ≤ pool.limits.maxBytes

omit [Crypto] in
theorem removeEntry_totalBytes_le (pool : Mempool) (txid : Hash256) :
    (pool.removeEntry txid).totalBytes ≤ pool.totalBytes := by
  unfold removeEntry
  split
  · exact Nat.le_refl _
  · exact Nat.sub_le _ _

omit [Crypto] in
theorem removeEntries_totalBytes_le (pool : Mempool) (txids : List Hash256) :
    (pool.removeEntries txids).totalBytes ≤ pool.totalBytes := by
  induction txids generalizing pool with
  | nil => exact Nat.le_refl _
  | cons txid rest ih => exact (ih _).trans (removeEntry_totalBytes_le pool txid)

omit [Crypto] in
theorem Bounded.removeEntries (h : Bounded pool) (txids : List Hash256) :
    Bounded (pool.removeEntries txids) := by
  refine ⟨fun txid entry hentry ↦ ?_, ?_, ?_⟩
  · exact h.size_eq txid entry (lookup_removeEntries_iff.mp hentry).2
  · rw [removeEntries_limits]
    exact (len_removeEntries_le pool txids).trans h.count_le
  · rw [removeEntries_limits]
    exact (removeEntries_totalBytes_le pool txids).trans h.bytes_le

omit [Crypto] in
/-- Making room succeeds only when the candidate fits. -/
theorem MakesRoom.fits_after {candidate : MempoolEntry} {evicted : List Hash256}
    (h : MakesRoom candidate pool evicted) :
    ¬ (pool.removeEntries evicted).wouldExceedLimits candidate.size := by
  induction h with
  | fits hfits => exact hfits
  | evict _ _ ih =>
      rw [removeEntries_append]
      exact ih

omit [Crypto] in
theorem makeRoomFor_fits {candidate : MempoolEntry}
    (h : pool.makeRoomFor candidate = (.ok (), pool')) :
    ¬ pool'.wouldExceedLimits candidate.size := by
  obtain ⟨evicted, hroom, rfl⟩ := makeRoomFor_ok_iff.mp h
  exact hroom.fits_after

omit [Crypto] in
/-- A candidate that fits is inserted within the limits. -/
theorem Bounded.insertEntry (h : Bounded pool) {txid : Hash256} {entry : MempoolEntry}
    (hsize : entry.size = entry.tx.serializedSize)
    (hfresh : pool.entries.lookup txid = none)
    (hfits : ¬ pool.wouldExceedLimits entry.size) : Bounded (pool.insertEntry txid entry) := by
  simp only [wouldExceedLimits, Bool.or_eq_true, decide_eq_true_eq, not_or, not_lt] at hfits
  refine ⟨fun key found hfound ↦ ?_, ?_, hfits.2⟩
  · change AList.lookup key (AList.insert txid entry pool.entries) = some found at hfound
    rw [EntryMap.lookup_insert_ite] at hfound
    split at hfound
    · obtain rfl := Option.some.inj hfound
      exact hsize
    · exact h.size_eq key found hfound
  · have hlength : (pool.insertEntry txid entry).len = pool.len + 1 := by
      change (AList.insert txid entry pool.entries).entries.length = _
      rw [AList.entries_insert_of_notMem (AList.lookup_eq_none.mp hfresh), List.length_cons, len]
    rw [hlength]
    exact hfits.1

theorem Moves.sound (h : Moves pool pool') (hsound : Sound pool) : Sound pool' := by
  induction h with
  | refl => exact hsound
  | remove _ txids ih => exact ih.removeEntries txids
  | accept _ hvalid _ ih => exact (validateCandidate_ok hvalid).insert_sound ih _

theorem Moves.bounded (h : Moves pool pool') (hbounded : Bounded pool) : Bounded pool' := by
  induction h with
  | refl => exact hbounded
  | remove _ txids ih => exact ih.removeEntries txids
  | accept _ hvalid hroom ih =>
      have hc := validateCandidate_ok hvalid
      refine (ih.removeEntries _).insertEntry (by rw [hc.size_eq, hc.tx_eq]) ?_
        (makeRoomFor_fits hroom)
      rw [lookup_removeEntries, hc.fresh, ite_self]

theorem Moves.limits_eq (h : Moves pool pool') : pool'.limits = pool.limits := by
  induction h with
  | refl => rfl
  | remove _ txids ih => exact (removeEntries_limits _ txids).trans ih
  | accept _ _ _ ih => exact (removeEntries_limits _ _).trans ih

omit [Crypto] in
theorem new_bounded (limits : MempoolLimits) : Bounded (new limits) where
  size_eq := by simp [new]
  count_le := Nat.zero_le _
  bytes_le := Nat.zero_le _

/-! ## The books of a pool -/

/-- The sequence number that the source keeps for a count of admissions. -/
def seqWord (count : ℕ) : UInt64 := UInt64.ofNat count

/-- The sequence numbers are unique and below the next one, as the source keeps them. -/
structure Numbered (pool : Mempool) : Prop where
  below : ∀ txid entry, pool.entries.lookup txid = some entry →
    seqWord entry.seq < seqWord pool.nextSeq
  unique : ∀ txid entry txid' entry', pool.entries.lookup txid = some entry →
    pool.entries.lookup txid' = some entry' → seqWord entry.seq = seqWord entry'.seq → txid = txid'

/-- What the four structures of a pool say about each other and about its limits. -/
structure Booked (limits : MempoolLimits) (pool : Mempool) : Prop where
  total_bytes : pool.totalBytes =
    (pool.entries.entries.map fun entry ↦ entry.2.tx.serializedSize).sum
  spends_iff : ∀ outpoint txid, pool.spends.lookup outpoint = some txid ↔
    ∃ entry, pool.entries.lookup txid = some entry ∧
      outpoint ∈ entry.tx.inputs.map TxInput.outPoint
  inputs_disjoint : ∀ txid entry txid' entry' outpoint, pool.entries.lookup txid = some entry →
    pool.entries.lookup txid' = some entry' → outpoint ∈ entry.tx.inputs.map TxInput.outPoint →
      outpoint ∈ entry'.tx.inputs.map TxInput.outPoint → txid = txid'
  own_txid : ∀ txid entry, pool.entries.lookup txid = some entry → entry.tx.txid = txid
  count_le : pool.len ≤ limits.maxTxCount
  bytes_le : pool.totalBytes ≤ limits.maxBytes

theorem Sound.booked (h : Sound pool) (hbounded : Bounded pool) : Booked pool.limits pool where
  total_bytes := by
    rw [h.bytes, entryBytes]
    refine congrArg List.sum (List.map_congr_left ?_)
    rintro ⟨txid, entry⟩ hentry
    exact hbounded.size_eq txid entry (EntryMap.mem_entries_iff.mp hentry)
  spends_iff := h.spends_iff
  inputs_disjoint := by
    intro txid entry txid' entry' outpoint hentry hentry' hinput hinput'
    have hmine := (h.spends_iff outpoint txid).mpr ⟨entry, hentry, hinput⟩
    have htheirs := (h.spends_iff outpoint txid').mpr ⟨entry', hentry', hinput'⟩
    rw [hmine] at htheirs
    exact Option.some.inj htheirs
  own_txid := h.key
  count_le := hbounded.count_le
  bytes_le := hbounded.bytes_le

omit [Crypto] in
theorem seqWord_toNat {count : ℕ} (h : count < 2 ^ 64) : (seqWord count).toNat = count :=
  UInt64.toNat_ofNat_of_lt' h

/-- Before the counter wraps the numbers are those of the admissions. -/
theorem Sound.numbered (h : Sound pool) (hfew : pool.nextSeq < 2 ^ 64) : Numbered pool where
  below := by
    intro txid entry hentry
    have hlt := h.seq_lt txid entry hentry
    rw [UInt64.lt_iff_toNat_lt, seqWord_toNat (hlt.trans hfew), seqWord_toNat hfew]
    exact hlt
  unique := by
    intro txid entry txid' entry' hentry hentry' heq
    have hlt := (h.seq_lt txid entry hentry).trans hfew
    have hlt' := (h.seq_lt txid' entry' hentry').trans hfew
    apply h.seq_inj txid entry txid' entry' hentry hentry'
    rw [← seqWord_toNat hlt, ← seqWord_toNat hlt', heq]

/-- After every run of calls on a new pool its books are right and within the
limits, and its sequence numbers are as long as the counter has not wrapped. -/
theorem runCalls_booked (limits : MempoolLimits) (calls : List Call) :
    Booked limits (runCalls calls (new limits)) ∧
      ((runCalls calls (new limits)).nextSeq < 2 ^ 64 →
        Numbered (runCalls calls (new limits))) := by
  have hmoves := runCalls_moves calls (new limits)
  have hsound := hmoves.sound (new_sound limits)
  have hbooked := hsound.booked (hmoves.bounded (new_bounded limits))
  rw [hmoves.limits_eq] at hbooked
  exact ⟨hbooked, hsound.numbered⟩

/-! ## The counter wraps -/

/-- A pool without entries after a number of admissions. -/
def emptied (limits : MempoolLimits) (count : ℕ) : Mempool := { new limits with nextSeq := count }

/-- The count of admissions shows in the sequence number of a candidate only. -/
theorem validateCandidate_counted (pool : Mempool) (count : ℕ) (tx : Transaction)
    (chainUtxo : UtxoSet) :
    { pool with nextSeq := count }.validateCandidate tx chainUtxo =
      (pool.validateCandidate tx chainUtxo).map fun found ↦
        (found.1, { found.2 with seq := count }) := by
  have hview : { pool with nextSeq := count }.buildValidationView chainUtxo =
      pool.buildValidationView chainUtxo := rfl
  have hconflicts : ∀ inputs, { pool with nextSeq := count }.checkMempoolConflicts inputs =
      pool.checkMempoolConflicts inputs := by
    intro inputs
    induction inputs with
    | nil => rfl
    | cons input rest ih => simp only [checkMempoolConflicts, ih]
  simp only [validateCandidate, hview, hconflicts]
  cases validateTxStructure tx with
  | error e => rfl
  | ok size =>
      simp only
      split
      · rfl
      · split
        · rfl
        · cases checkDuplicateInputs tx with
          | error e => rfl
          | ok _ =>
              cases pool.checkMempoolConflicts tx.inputs with
              | error e => rfl
              | ok _ =>
                  simp only
                  cases (pool.buildValidationView chainUtxo).validateTransaction tx with
                  | error e => rfl
                  | ok _ =>
                      cases computeFee tx (pool.buildValidationView chainUtxo) with
                      | error e => rfl
                      | ok fee =>
                          cases verifyScripts tx (pool.buildValidationView chainUtxo) <;> rfl

/-- A transaction that a new pool admits is admitted by a pool without entries. -/
theorem emptied_acceptTx {limits : MempoolLimits} {tx : Transaction} {fee : UInt64}
    {candidate : MempoolEntry}
    (hvalid : (new limits).validateCandidate tx chainUtxo = .ok (fee, candidate))
    (hfits : ¬ (new limits).wouldExceedLimits candidate.size) (count : ℕ) :
    ((emptied limits count).acceptTx tx chainUtxo).2 =
      (emptied limits count).insertEntry tx.txid { candidate with seq := count } := by
  have hcounted : (emptied limits count).validateCandidate tx chainUtxo =
      .ok (fee, { candidate with seq := count }) := by
    rw [emptied, validateCandidate_counted, hvalid]
    rfl
  have hroom : (emptied limits count).makeRoomFor { candidate with seq := count } =
      (.ok (), emptied limits count) := makeRoomFor_ok_iff.mpr ⟨[], .fits hfits, rfl⟩
  simp only [Mempool.acceptTx, hcounted, hroom]

theorem emptied_sound (limits : MempoolLimits) (count : ℕ) : Sound (emptied limits count) where
  key := (new_sound limits).key
  seq_lt := by simp [emptied, new]
  seq_inj := (new_sound limits).seq_inj
  spends_iff := (new_sound limits).spends_iff
  bytes := (new_sound limits).bytes

/-- Admitting a transaction and removing it for a block counts one admission. -/
theorem emptied_round {limits : MempoolLimits} {tx : Transaction} {fee : UInt64}
    {candidate : MempoolEntry}
    (hvalid : (new limits).validateCandidate tx chainUtxo = .ok (fee, candidate))
    (hfits : ¬ (new limits).wouldExceedLimits candidate.size) {block : Block}
    (hblock : tx ∈ block.transactions) (count : ℕ) :
    runCalls [.acceptTx tx chainUtxo, .removeForBlock block] (emptied limits count) =
      emptied limits (count + 1) := by
  have hrun : runCalls [.acceptTx tx chainUtxo, .removeForBlock block] (emptied limits count) =
      ((emptied limits count).insertEntry tx.txid { candidate with seq := count }).removeForBlock
        block :=
    congrArg (removeForBlock · block) (emptied_acceptTx hvalid hfits count)
  rw [hrun]
  have hmoves := runCalls_moves [.acceptTx tx chainUtxo, .removeForBlock block]
    (emptied limits count)
  have hsound := hmoves.sound (emptied_sound limits count)
  have hlimits := hmoves.limits_eq
  rw [hrun] at hsound hlimits
  refine (hsound.eq_blank fun txid ↦ ?_).trans ?_
  · rw [removeForBlock, lookup_removeEntries]
    split
    · rfl
    · rename_i hkept
      apply (EntryMap.lookup_insert_ite _ _ _ _).trans
      rw [if_neg]
      · rfl
      · rintro rfl
        exact hkept (confirmed_mem_removedFor hblock)
  · rw [hlimits, removeForBlock, removeEntries_nextSeq]
    rfl

theorem emptied_rounds {limits : MempoolLimits} {tx : Transaction} {fee : UInt64}
    {candidate : MempoolEntry}
    (hvalid : (new limits).validateCandidate tx chainUtxo = .ok (fee, candidate))
    (hfits : ¬ (new limits).wouldExceedLimits candidate.size) {block : Block}
    (hblock : tx ∈ block.transactions) (count : ℕ) :
    runCalls (List.replicate count [.acceptTx tx chainUtxo, .removeForBlock block]).flatten
      (new limits) = emptied limits count := by
  induction count with
  | zero => rfl
  | succ count ih =>
      rw [List.replicate_succ', List.flatten_append, runCalls_append, ih, List.flatten_singleton]
      exact emptied_round hvalid hfits hblock count

omit [Crypto] in
/-- With the last number before the counter wraps, an entry is not below the next number. -/
theorem not_numbered_of_last {txid : Hash256} {entry : MempoolEntry}
    (hentry : pool.entries.lookup txid = some entry) (hnext : pool.nextSeq = 2 ^ 64) :
    ¬ Numbered pool := by
  intro h
  have hlt := h.below txid entry hentry
  rw [hnext, UInt64.lt_iff_toNat_lt] at hlt
  exact Nat.not_lt_zero _ hlt

end Mempool

end Bitrst

namespace Bitrst.Sample

/-- The calls that admit a transaction and remove it again, 2 ^ 64 - 1 times, and admit it once
more. -/
def wrappingCalls : List Mempool.Call :=
  (List.replicate (2 ^ 64 - 1) [.acceptTx (spend coinId0 []) start.utxo,
    .removeForBlock ⟨genesis.header, [spend coinId0 []]⟩]).flatten ++
      [.acceptTx (spend coinId0 []) start.utxo]

/-- The last of 2 ^ 64 admissions wraps the counter. -/
theorem wrapped_not_numbered : ¬ ∀ limits calls,
    Mempool.Booked limits (Mempool.runCalls calls (Mempool.new limits)) ∧
      Mempool.Numbered (Mempool.runCalls calls (Mempool.new limits)) := by
  intro h
  have hvalid : (Mempool.new ⟨1, 1000⟩).validateCandidate (spend coinId0 []) start.utxo =
      .ok (0, ⟨spend coinId0 [], 0, 60, 0⟩) := by decide +kernel
  have hrun : Mempool.runCalls wrappingCalls (Mempool.new ⟨1, 1000⟩) =
      (Mempool.emptied ⟨1, 1000⟩ (2 ^ 64 - 1)).insertEntry (spend coinId0 []).txid
        ⟨spend coinId0 [], 0, 60, 2 ^ 64 - 1⟩ := by
    rw [wrappingCalls, Mempool.runCalls_append,
      Mempool.emptied_rounds hvalid (by decide) List.mem_cons_self]
    exact Mempool.emptied_acceptTx hvalid (by decide) _
  have hentry : (Mempool.runCalls wrappingCalls (Mempool.new ⟨1, 1000⟩)).entries.lookup
      (spend coinId0 []).txid = some ⟨spend coinId0 [], 0, 60, 2 ^ 64 - 1⟩ := by
    rw [hrun]
    exact AList.lookup_insert _
  apply Mempool.not_numbered_of_last hentry ?_ (h ⟨1, 1000⟩ wrappingCalls).2
  rw [hrun]
  decide

end Bitrst.Sample
