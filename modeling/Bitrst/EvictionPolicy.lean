import Bitrst.MempoolEviction

/-!
# The eviction policy

A full pool is to give up residents with a lower fee rate only, the lowest and oldest
first.  The loop also evicts a resident of the same fee rate, since every resident is
older than the candidate; that happens exactly when the residents with a lower fee rate
do not make room while those with the same one do.
-/

namespace Bitrst

open Support

variable [Crypto]

namespace Mempool

variable {pool : Mempool} {candidate : MempoolEntry}

/-! ## The turns of the loop -/

/-- Making room for the candidate, the loop evicts `victim` from what is left of the pool. -/
inductive Chosen (candidate : MempoolEntry) : Mempool → Mempool → Hash256 → Prop
  | now {pool : Mempool} {victim : Hash256} (hvictim : Evicts candidate pool victim) :
      Chosen candidate pool pool victim
  | later {pool left : Mempool} {first victim : Hash256} (hfirst : Evicts candidate pool first)
      (hrest : Chosen candidate (pool.removeEntryAndDescendants first) left victim) :
      Chosen candidate pool left victim

namespace Chosen

variable {left : Mempool} {victim : Hash256}

omit [Crypto] in
theorem evicts (h : Chosen candidate pool left victim) : Evicts candidate left victim := by
  induction h with
  | now hvictim => exact hvictim
  | later _ _ ih => exact ih

omit [Crypto] in
/-- The victim is taken from what the turns before it left. -/
theorem left_eq (h : Chosen candidate pool left victim) :
    ∃ removed, left = pool.removeEntries removed := by
  induction h with
  | now _ => exact ⟨[], rfl⟩
  | @later pool left first victim _ _ ih =>
      obtain ⟨removed, heq⟩ := ih
      refine ⟨first :: pool.descendantsOf first ++ removed, ?_⟩
      rw [heq, removeEntries_append]
      rfl

end Chosen

omit [Crypto] in
/-- Every evicted entry is a victim or one of its descendants. -/
theorem MakesRoom.chosen {evicted : List Hash256} (h : MakesRoom candidate pool evicted)
    {txid : Hash256} (hmem : txid ∈ evicted) :
    ∃ left victim, Chosen candidate pool left victim ∧
      txid ∈ victim :: left.descendantsOf victim := by
  induction h with
  | fits _ => cases hmem
  | @evict pool victim rest hvictim _ ih =>
      rcases List.mem_append.mp hmem with hnow | hlater
      · exact ⟨pool, victim, .now hvictim, hnow⟩
      · obtain ⟨left, victim', hchosen, htxid⟩ := ih hlater
        exact ⟨left, victim', .later hvictim hchosen, htxid⟩

/-! ## Residents with a lower fee rate -/

/-- The resident has a lower fee rate than the candidate. -/
def isOutbid (pool : Mempool) (candidate : MempoolEntry) (txid : Hash256) : Bool :=
  (pool.entries.lookup txid).any fun entry ↦ decide (entry.feeRate < candidate.feeRate)

/-- The residents with a lower fee rate than the candidate, with their descendants. -/
def outbid (pool : Mempool) (candidate : MempoolEntry) : List Hash256 :=
  pool.withDescendants (pool.txids.filter (pool.isOutbid candidate))

omit [Crypto] in
theorem isOutbid_iff {txid : Hash256} :
    pool.isOutbid candidate txid ↔
      ∃ entry, pool.entries.lookup txid = some entry ∧ entry.feeRate < candidate.feeRate := by
  unfold isOutbid
  cases pool.entries.lookup txid <;> simp

omit [Crypto] in
theorem isOutbid_of_removeEntries {removed : List Hash256} {txid : Hash256}
    (h : (pool.removeEntries removed).isOutbid candidate txid) : pool.isOutbid candidate txid := by
  obtain ⟨entry, hentry, hlower⟩ := isOutbid_iff.mp h
  rw [lookup_removeEntries] at hentry
  split at hentry
  · cases hentry
  · exact isOutbid_iff.mpr ⟨entry, hentry, hlower⟩

omit [Crypto] in
theorem mem_outbid {txid : Hash256} (h : pool.isOutbid candidate txid) :
    txid ∈ pool.outbid candidate := by
  obtain ⟨entry, hentry, -⟩ := isOutbid_iff.mp h
  have hkey : txid ∈ pool.txids := List.mem_keys_of_mem (EntryMap.mem_entries_iff.mpr hentry)
  exact mem_withDescendants (List.mem_filter.mpr ⟨hkey, h⟩)

theorem Sound.outbid_subset (h : Sound pool) {txids : List Hash256}
    (hclosed : SpendClosed pool txids)
    (houtbid : ∀ txid, pool.isOutbid candidate txid → txid ∈ txids) :
    pool.outbid candidate ⊆ txids :=
  h.withDescendants_subset hclosed fun txid hmem ↦ houtbid txid (List.mem_filter.mp hmem).2

omit [Crypto] in
/-- The lowest resident is the first one in the order of eviction. -/
theorem lowestPriorityTxid_spec {victim : Hash256} (h : pool.lowestPriorityTxid = some victim) :
    ∃ entry, pool.entries.lookup victim = some entry ∧
      ∀ other found, pool.entries.lookup other = some found → rank entry ≤ rank found := by
  unfold lowestPriorityTxid at h
  obtain ⟨⟨key, lowest⟩, hmin, rfl⟩ := Option.map_eq_some_iff.mp h
  refine ⟨lowest, EntryMap.mem_entries_iff.mp (List.argmin_mem hmin), fun other found hfound ↦ ?_⟩
  exact List.le_of_mem_argmin (f := fun found : Sigma fun _ : Hash256 ↦ MempoolEntry ↦ rank found.2)
    (EntryMap.mem_entries_iff.mpr hfound) hmin

omit [Crypto] in
theorem feeRate_le_of_rank_le {entry found : MempoolEntry} (h : rank entry ≤ rank found) :
    entry.feeRate ≤ found.feeRate := by
  rw [rank, rank, Prod.Lex.toLex_le_toLex] at h
  rw [UInt64.le_iff_toNat_le]
  omega

omit [Crypto] in
/-- When the lowest resident has no lower fee rate, none has. -/
theorem outbid_eq_nil {victim : Hash256} {entry : MempoolEntry}
    (hlowest : pool.lowestPriorityTxid = some victim)
    (hentry : pool.entries.lookup victim = some entry)
    (hrate : candidate.feeRate ≤ entry.feeRate) : pool.outbid candidate = [] := by
  obtain ⟨lowest, hfound, hleast⟩ := lowestPriorityTxid_spec hlowest
  rw [hentry] at hfound
  obtain rfl := Option.some.inj hfound
  have hnone : pool.txids.filter (pool.isOutbid candidate) = [] := by
    apply List.filter_eq_nil_iff.mpr
    intro txid _ houtbid
    obtain ⟨found, hfound, hlower⟩ := isOutbid_iff.mp houtbid
    have hle := feeRate_le_of_rank_le (hleast txid found hfound)
    rw [UInt64.le_iff_toNat_le] at hle hrate
    rw [UInt64.lt_iff_toNat_lt] at hlower
    omega
  rw [outbid, hnone]
  rfl

/-! ## Room -/

/-- The candidate fits once the listed entries are removed. -/
def FitsWithout (pool : Mempool) (candidate : MempoolEntry) (txids : List Hash256) : Prop :=
  ¬ (pool.removeEntries txids).wouldExceedLimits candidate.size

omit [Crypto] in
theorem not_fitsWithout_nil (h : pool.wouldExceedLimits candidate.size) :
    ¬ pool.FitsWithout candidate [] := not_not.mpr h

/-- As long as the residents with a lower fee rate make room, one of them is evicted next,
and those that are left then make room for the candidate. -/
theorem Sound.evicts_outbid (h : Sound pool)
    (hfits : pool.FitsWithout candidate (pool.outbid candidate)) {victim : Hash256}
    (hvictim : Evicts candidate pool victim) :
    pool.isOutbid candidate victim ∧
      (pool.removeEntryAndDescendants victim).FitsWithout candidate
        ((pool.removeEntryAndDescendants victim).outbid candidate) := by
  obtain ⟨hexceeds, hlowest, -⟩ := hvictim
  constructor
  · obtain ⟨entry, hentry⟩ := lowestPriorityTxid_mem hlowest
    refine isOutbid_iff.mpr ⟨entry, hentry, ?_⟩
    by_contra hrate
    rw [outbid_eq_nil hlowest hentry (UInt64.not_lt.mp hrate)] at hfits
    exact not_fitsWithout_nil hexceeds hfits
  · have hleft : Sound (pool.removeEntryAndDescendants victim) := h.removeEntries _
    have hclosed : SpendClosed pool (victim :: pool.descendantsOf victim ++
        (pool.removeEntryAndDescendants victim).outbid candidate) :=
      (h.descendants_closed victim).append (hleft.withDescendants_closed _)
    have hall : pool.outbid candidate ⊆ victim :: pool.descendantsOf victim ++
        (pool.removeEntryAndDescendants victim).outbid candidate := by
      apply h.outbid_subset hclosed
      intro txid houtbid
      by_cases hgone : txid ∈ victim :: pool.descendantsOf victim
      · exact List.mem_append_left _ hgone
      · obtain ⟨entry, hentry, hlower⟩ := isOutbid_iff.mp houtbid
        refine List.mem_append_right _ (mem_outbid (isOutbid_iff.mpr ⟨entry, ?_, hlower⟩))
        rw [removeEntryAndDescendants, lookup_removeEntries, if_neg hgone, hentry]
    have hroom := h.fits_mono (fun _ _ hmem ↦ hall hmem) hfits
    rw [removeEntries_append] at hroom
    exact hroom

/-- As long as the residents with a lower fee rate make room, all victims are among them. -/
theorem Chosen.isOutbid {left : Mempool} {victim : Hash256}
    (hchosen : Chosen candidate pool left victim) (h : Sound pool)
    (hfits : pool.FitsWithout candidate (pool.outbid candidate)) :
    left.isOutbid candidate victim := by
  induction hchosen with
  | now hvictim => exact (h.evicts_outbid hfits hvictim).1
  | later hfirst _ ih => exact ih (h.removeEntries _) (h.evicts_outbid hfits hfirst).2

/-- A victim with a lower fee rate takes only entries with it that spend from such residents. -/
theorem Chosen.mem_outbid {left : Mempool} {victim txid : Hash256}
    (hchosen : Chosen candidate pool left victim) (h : Sound pool)
    (hvictim : left.isOutbid candidate victim)
    (hmem : txid ∈ victim :: left.descendantsOf victim) : txid ∈ pool.outbid candidate := by
  obtain ⟨removed, rfl⟩ := hchosen.left_eq
  refine (h.removeEntries removed).descendants_subset ?_ ?_ hmem
  · exact SpendClosed.removeEntries (h.withDescendants_closed _)
  · exact Mempool.mem_outbid (isOutbid_of_removeEntries hvictim)

omit [Crypto] in
theorem makeRoomLoop_error {n : ℕ} {error : MempoolError}
    (h : (makeRoomLoop candidate n pool).1 = .error error) : error = .atCapacity := by
  induction n generalizing pool with
  | zero => exact (Except.error.inj h).symm
  | succ n ih =>
      unfold makeRoomLoop at h
      split at h
      · split at h
        · exact (Except.error.inj h).symm
        · split at h
          · exact ih h
          · exact (Except.error.inj h).symm
      · cases h

/-! ## The policy -/

/-- A resident that a successful admission removes was the lowest one left and had a lower
fee rate than the transaction, or is a descendant of such a resident; and a full pool refuses
a transaction whose fee rate is not above that of its lowest resident. -/
structure FollowsPolicy (pool : Mempool) (tx : Transaction) (chainUtxo : UtxoSet) : Prop where
  removed : ∀ fee candidate accepted pool',
    pool.validateCandidate tx chainUtxo = .ok (fee, candidate) →
      pool.acceptTx tx chainUtxo = (.ok accepted, pool') →
        ∀ txid, pool.contains txid → ¬ pool'.contains txid →
          ∃ left victim entry, Chosen candidate pool left victim ∧
            left.entries.lookup victim = some entry ∧ entry.feeRate < candidate.feeRate ∧
            (∀ other found, left.entries.lookup other = some found → rank entry ≤ rank found) ∧
            txid ∈ victim :: left.descendantsOf victim
  refused : ∀ fee candidate victim entry,
    pool.validateCandidate tx chainUtxo = .ok (fee, candidate) →
      pool.wouldExceedLimits candidate.size → pool.lowestPriorityTxid = some victim →
        pool.entries.lookup victim = some entry → candidate.feeRate ≤ entry.feeRate →
          (pool.acceptTx tx chainUtxo).1 = .error .atCapacity

theorem acceptTx_of_room {tx : Transaction} {chainUtxo : UtxoSet} {fee : UInt64} {left : Mempool}
    (hvalid : pool.validateCandidate tx chainUtxo = .ok (fee, candidate))
    (hroom : pool.makeRoomFor candidate = (.ok (), left)) :
    pool.acceptTx tx chainUtxo =
      (.ok ⟨tx.txid, fee, candidate.size⟩, left.insertEntry tx.txid candidate) := by
  unfold acceptTx
  rw [hvalid]
  simp only [hroom]

theorem acceptTx_of_no_room {tx : Transaction} {chainUtxo : UtxoSet} {fee : UInt64}
    {left : Mempool} {error : MempoolError}
    (hvalid : pool.validateCandidate tx chainUtxo = .ok (fee, candidate))
    (hroom : pool.makeRoomFor candidate = (.error error, left)) :
    pool.acceptTx tx chainUtxo = (.error error, left) := by
  unfold acceptTx
  rw [hvalid]
  simp only [hroom]

/-- What a successful admission leaves of the residents. -/
theorem contains_insertEntry {tx : Transaction} {chainUtxo : UtxoSet} {fee : UInt64}
    (hvalid : pool.validateCandidate tx chainUtxo = .ok (fee, candidate)) {txid : Hash256}
    (hresident : pool.contains txid) (evicted : List Hash256) :
    ((pool.removeEntries evicted).insertEntry tx.txid candidate).contains txid ↔
      txid ∉ evicted := by
  have hne : txid ≠ tx.txid := by
    rintro rfl
    unfold contains at hresident
    rw [(validateCandidate_ok hvalid).fresh] at hresident
    cases hresident
  have hlookup : ((pool.removeEntries evicted).insertEntry tx.txid candidate).entries.lookup txid =
      if txid ∈ evicted then none else pool.entries.lookup txid := by
    rw [← lookup_removeEntries]
    exact AList.lookup_insert_ne hne
  unfold contains at hresident ⊢
  rw [hlookup]
  by_cases hgone : txid ∈ evicted
  · simp [hgone]
  · simp [hgone, hresident]

/-- In every pool that calls lead to, an admission follows the policy exactly when the residents
with a lower fee rate make room for the candidate wherever those that give way do. -/
theorem acceptTx_follows_policy_iff (limits : MempoolLimits) (calls : List Call)
    (tx : Transaction) (chainUtxo : UtxoSet) :
    FollowsPolicy (runCalls calls (new limits)) tx chainUtxo ↔
      ∀ fee candidate,
        (runCalls calls (new limits)).validateCandidate tx chainUtxo = .ok (fee, candidate) →
          (runCalls calls (new limits)).FitsWithout candidate
            ((runCalls calls (new limits)).yielding candidate) →
          (runCalls calls (new limits)).FitsWithout candidate
            ((runCalls calls (new limits)).outbid candidate) := by
  have h : Sound (runCalls calls (new limits)) :=
    (runCalls_moves calls (new limits)).sound (new_sound limits)
  generalize runCalls calls (new limits) = pool at h
  constructor
  · intro hpolicy fee candidate hvalid hfits
    rcases h.makeRoomFor_cases candidate with ⟨hroom, -⟩ | ⟨-, hexceeds, -⟩
    · obtain ⟨evicted, hmakes, hleft⟩ := makeRoomFor_ok_iff.mp (Prod.ext hroom rfl)
      have haccept := acceptTx_of_room hvalid (makeRoomFor_ok_iff.mpr ⟨evicted, hmakes, rfl⟩)
      refine h.fits_mono (fun txid hkey hgone ↦ ?_) hmakes.fits_after
      have hresident : pool.contains txid := AList.lookup_isSome.mpr hkey
      obtain ⟨left, victim, entry, hchosen, hentry, hlower, -, hmem⟩ :=
        hpolicy.removed fee candidate _ _ hvalid haccept txid hresident
          fun hkept ↦ (contains_insertEntry hvalid hresident evicted).mp hkept hgone
      exact hchosen.mem_outbid h (isOutbid_iff.mpr ⟨entry, hentry, hlower⟩) hmem
    · exact (hfits hexceeds).elim
  · intro hmakes
    constructor
    · intro fee candidate accepted pool' hvalid haccept txid hresident hremoved
      rcases hroom : pool.makeRoomFor candidate with ⟨_ | _, left⟩
      · rw [acceptTx_of_no_room hvalid hroom] at haccept
        cases haccept
      · rw [acceptTx_of_room hvalid hroom] at haccept
        obtain ⟨-, rfl⟩ := Prod.mk.inj haccept
        obtain ⟨evicted, hevicted, rfl⟩ := makeRoomFor_ok_iff.mp hroom
        have hgone : txid ∈ evicted := by
          by_contra hkept
          exact hremoved ((contains_insertEntry hvalid hresident evicted).mpr hkept)
        have hfits : pool.FitsWithout candidate (pool.outbid candidate) := by
          apply hmakes fee candidate hvalid
          rcases h.makeRoomFor_cases candidate with ⟨-, hfits⟩ | ⟨hfails, -⟩
          · exact hfits
          · rw [hroom] at hfails
            exact (hfails rfl).elim
        obtain ⟨left, victim, hchosen, hmem⟩ := hevicted.chosen hgone
        obtain ⟨entry, hentry, hlower⟩ := isOutbid_iff.mp (hchosen.isOutbid h hfits)
        obtain ⟨lowest, hlowest, hleast⟩ := lowestPriorityTxid_spec hchosen.evicts.2.1
        rw [hentry] at hlowest
        obtain rfl := Option.some.inj hlowest
        exact ⟨left, victim, entry, hchosen, hentry, hlower, hleast, hmem⟩
    · intro fee candidate victim entry hvalid hexceeds hlowest hentry hrate
      have hnone := hmakes fee candidate hvalid
      rw [outbid_eq_nil hlowest hentry hrate] at hnone
      rcases h.makeRoomFor_cases candidate with ⟨-, hfits⟩ | ⟨hfails, -⟩
      · exact (not_fitsWithout_nil hexceeds (hnone hfits)).elim
      · rcases hroom : pool.makeRoomFor candidate with ⟨error | _, left⟩
        · rw [acceptTx_of_no_room hvalid hroom]
          exact congrArg _ (makeRoomLoop_error (congrArg Prod.fst hroom))
        · rw [hroom] at hfails
          exact (hfails rfl).elim

end Mempool

end Bitrst

namespace Bitrst.Sample

open Support

/-- A second transaction with the fee rate of the resident takes its place. -/
theorem equal_rate_evicts : ¬ ∀ (limits : MempoolLimits) (calls : List Mempool.Call)
    (tx : Transaction) (chainUtxo : UtxoSet),
    Mempool.FollowsPolicy (Mempool.runCalls calls (Mempool.new limits)) tx chainUtxo := by
  intro h
  have hpolicy := h ⟨1, 1000⟩ [.acceptTx (payout coinId0 [100]) purse] (payout coinId1 [100]) purse
  have hrefused := hpolicy.refused 400 ⟨payout coinId1 [100], 6, 60, 1⟩
    (payout coinId0 [100]).txid ⟨payout coinId0 [100], 6, 60, 0⟩ (by decide +kernel)
    (by decide +kernel) (by decide +kernel) (by decide +kernel) (by decide)
  have haccepted : ((Mempool.runCalls [.acceptTx (payout coinId0 [100]) purse]
      (Mempool.new ⟨1, 1000⟩)).acceptTx (payout coinId1 [100]) purse).1.isOk := by decide +kernel
  rw [hrefused] at haccepted
  cases haccepted

end Bitrst.Sample
