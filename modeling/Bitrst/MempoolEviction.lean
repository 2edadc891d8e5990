import Bitrst.MempoolRuns
import Mathlib.Algebra.Order.BigOperators.Group.List

/-!
# Evictions of a failed admission

`make_room_for` evicts before it knows that the candidate will fit.  Its loop
ends with an error only when nothing is left that gives way to the candidate, so
a failure leaves the pool alone exactly when no entry gave way in the first
place.
-/

namespace Bitrst

open Support

variable [Crypto]

namespace Mempool

variable {pool : Mempool} {candidate : MempoolEntry}

/-! ## Which entries give way -/

/-- The order in which entries give way: the lower fee rate first, and the older of two equals. -/
def rank (entry : MempoolEntry) : ℕ ×ₗ ℕ := toLex (entry.feeRate.toNat, entry.seq)

omit [Crypto] in
theorem shouldEvict_iff {txid : Hash256} :
    pool.shouldEvict txid candidate ↔
      ∃ entry, pool.entries.lookup txid = some entry ∧ rank entry < rank candidate := by
  unfold shouldEvict
  cases pool.entries.lookup txid with
  | none => simp
  | some entry =>
      simp only [Option.some.injEq, exists_eq_left', rank, Prod.Lex.toLex_lt_toLex,
        UInt64.lt_iff_toNat_lt]
      split
      · rename_i hlower
        simp [hlower]
      · rename_i hnot
        split
        · rename_i hhigher
          simp only [Bool.false_eq_true, false_iff]
          omega
        · rw [decide_eq_true_eq]
          omega

omit [Crypto] in
/-- When the lowest entry does not give way, none does. -/
theorem not_shouldEvict_of_lowest {victim : Hash256}
    (hlowest : pool.lowestPriorityTxid = some victim)
    (hvictim : ¬ pool.shouldEvict victim candidate) (txid : Hash256) :
    ¬ pool.shouldEvict txid candidate := by
  rw [shouldEvict_iff] at hvictim ⊢
  rintro ⟨entry, hentry, hrank⟩
  unfold lowestPriorityTxid at hlowest
  obtain ⟨⟨key, lowest⟩, hmin, rfl⟩ := Option.map_eq_some_iff.mp hlowest
  have hle : rank lowest ≤ rank entry :=
    List.le_of_mem_argmin (f := fun found : Sigma fun _ : Hash256 ↦ MempoolEntry ↦ rank found.2)
      (EntryMap.mem_entries_iff.mpr hentry) hmin
  exact hvictim ⟨lowest, EntryMap.mem_entries_iff.mp (List.argmin_mem hmin), hle.trans_lt hrank⟩

omit [Crypto] in
theorem not_shouldEvict_of_none (hlowest : pool.lowestPriorityTxid = none) (txid : Hash256) :
    ¬ pool.shouldEvict txid candidate := by
  rw [shouldEvict_iff]
  rintro ⟨entry, hentry, -⟩
  have hmem := EntryMap.mem_entries_iff.mpr hentry
  rw [lowestPriorityTxid, Option.map_eq_none_iff, List.argmin_eq_none] at hlowest
  rw [hlowest] at hmem
  cases hmem

/-! ## Sets of entries closed under spending -/

/-- What spends from the listed transactions is listed. -/
def SpendClosed (pool : Mempool) (txids : List Hash256) : Prop :=
  ∀ txid entry, pool.entries.lookup txid = some entry →
    ∀ input ∈ entry.tx.inputs, input.previousOutput ∈ txids → txid ∈ txids

theorem Sound.descendants_closed (h : Sound pool) (root : Hash256) :
    SpendClosed pool (root :: pool.descendantsOf root) :=
  fun _ _ hentry _ hinput hparent ↦
    List.mem_cons_of_mem _ (mem_descendantsOf h hentry hinput hparent)

/-- The descendants are the least such set with the root. -/
theorem Sound.descendants_subset (h : Sound pool) {txids : List Hash256}
    (hclosed : SpendClosed pool txids) {root : Hash256} (hroot : root ∈ txids) :
    root :: pool.descendantsOf root ⊆ txids := by
  apply List.cons_subset.mpr
  refine ⟨hroot, ?_⟩
  apply reachableFrom_subset
  intro spend hspend hsource
  obtain ⟨entry, hentry, hinput⟩ := (h.spends_iff _ _).mp (EntryMap.mem_entries_iff.mp hspend)
  obtain ⟨input, hmem, heq⟩ := List.mem_map.mp hinput
  apply hclosed _ entry hentry input hmem
  have htxid : input.previousOutput = spend.1.txid := congrArg OutPoint.txid heq
  rw [htxid]
  rcases hsource with hsource | hsource
  · exact hsource ▸ hroot
  · exact hsource

omit [Crypto] in
theorem SpendClosed.removeEntries {txids removed : List Hash256} (h : SpendClosed pool txids) :
    SpendClosed (pool.removeEntries removed) txids := by
  exact fun txid entry hentry ↦ h txid entry (lookup_removeEntries_iff.mp hentry).2

omit [Crypto] in
/-- Closed removals one after the other make a closed removal. -/
theorem SpendClosed.append {removed removed' : List Hash256} (h : SpendClosed pool removed)
    (h' : SpendClosed (pool.removeEntries removed) removed') :
    SpendClosed pool (removed ++ removed') := by
  intro txid entry hentry input hinput hparent
  by_cases hgone : txid ∈ removed
  · exact List.mem_append_left _ hgone
  · rcases List.mem_append.mp hparent with hparent | hparent
    · exact (hgone (h txid entry hentry input hinput hparent)).elim
    · apply List.mem_append_right
      exact h' txid entry (lookup_removeEntries_iff.mpr ⟨hgone, hentry⟩) input hinput hparent

/-- The transactions with their descendants. -/
def withDescendants (pool : Mempool) (roots : List Hash256) : List Hash256 :=
  roots.flatMap fun txid ↦ txid :: pool.descendantsOf txid

omit [Crypto] in
theorem mem_withDescendants {roots : List Hash256} {txid : Hash256} (h : txid ∈ roots) :
    txid ∈ pool.withDescendants roots :=
  List.mem_flatMap.mpr ⟨txid, h, List.mem_cons_self⟩

theorem Sound.withDescendants_closed (h : Sound pool) (roots : List Hash256) :
    SpendClosed pool (pool.withDescendants roots) := by
  intro txid entry hentry input hinput hparent
  obtain ⟨root, hroot, hmem⟩ := List.mem_flatMap.mp hparent
  exact List.mem_flatMap.mpr
    ⟨root, hroot, h.descendants_closed root txid entry hentry input hinput hmem⟩

/-- They are the least closed set with the transactions. -/
theorem Sound.withDescendants_subset (h : Sound pool) {roots txids : List Hash256}
    (hclosed : SpendClosed pool txids) (hroots : roots ⊆ txids) :
    pool.withDescendants roots ⊆ txids := by
  intro txid hmem
  obtain ⟨root, hroot, hmem⟩ := List.mem_flatMap.mp hmem
  exact h.descendants_subset hclosed (hroots hroot) hmem

/-- The entries that give way to the candidate, with their descendants. -/
def yielding (pool : Mempool) (candidate : MempoolEntry) : List Hash256 :=
  (pool.txids.filter fun txid ↦ pool.shouldEvict txid candidate).flatMap fun txid ↦
    txid :: pool.descendantsOf txid

omit [Crypto] in
theorem mem_yielding_of_shouldEvict {txid : Hash256} (h : pool.shouldEvict txid candidate) :
    txid ∈ pool.yielding candidate := by
  obtain ⟨entry, hentry, -⟩ := shouldEvict_iff.mp h
  have hkey : txid ∈ pool.txids :=
    List.mem_keys_of_mem (EntryMap.mem_entries_iff.mpr hentry)
  exact mem_withDescendants (List.mem_filter.mpr ⟨hkey, h⟩)

theorem Sound.yielding_closed (h : Sound pool) (candidate : MempoolEntry) :
    SpendClosed pool (pool.yielding candidate) := h.withDescendants_closed _

theorem Sound.yielding_subset (h : Sound pool) {txids : List Hash256}
    (hclosed : SpendClosed pool txids)
    (hevict : ∀ txid, pool.shouldEvict txid candidate → txid ∈ txids) :
    pool.yielding candidate ⊆ txids :=
  h.withDescendants_subset hclosed fun txid hmem ↦ hevict txid (List.mem_filter.mp hmem).2

omit [Crypto] in
theorem shouldEvict_of_removeEntries {removed : List Hash256} {txid : Hash256}
    (h : (pool.removeEntries removed).shouldEvict txid candidate) :
    pool.shouldEvict txid candidate := by
  obtain ⟨entry, hentry, hrank⟩ := shouldEvict_iff.mp h
  exact shouldEvict_iff.mpr ⟨entry, (lookup_removeEntries_iff.mp hentry).2, hrank⟩

/-! ## The loop -/

/-- What the loop removed when it ended without room for the candidate. -/
structure GivesUp (pool : Mempool) (candidate : MempoolEntry) (removed : List Hash256) :
    Prop where
  closed : SpendClosed pool removed
  exceeds : (pool.removeEntries removed).wouldExceedLimits candidate.size
  nothing_left : ∀ txid, ¬ (pool.removeEntries removed).shouldEvict txid candidate

/-- Whatever the loop removes is closed under spending and gives way to the candidate. -/
theorem makeRoomLoop_removes (candidate : MempoolEntry) (n : ℕ) (pool : Mempool)
    (h : Sound pool) (hfuel : pool.len < n) :
    ∃ removed, (makeRoomLoop candidate n pool).2 = pool.removeEntries removed ∧
      removed ⊆ pool.yielding candidate ∧
      ((makeRoomLoop candidate n pool).1 ≠ .ok () → GivesUp pool candidate removed) := by
  induction n generalizing pool with
  | zero => omega
  | succ n ih =>
      unfold makeRoomLoop
      split
      · rename_i hexceeds
        have hclosed : SpendClosed pool [] := by
          intro txid entry _ input _ hparent
          cases hparent
        split
        · rename_i hlowest
          exact ⟨[], rfl, List.nil_subset _,
            fun _ ↦ ⟨hclosed, hexceeds, not_shouldEvict_of_none hlowest⟩⟩
        · rename_i victim hlowest
          split
          · -- A victim goes with its descendants; the next round starts from what is left.
            rename_i hevict
            obtain ⟨rest, heq, hrest, hfails⟩ := ih (pool.removeEntryAndDescendants victim)
              (h.removeEntries _) (by have := len_removeEntryAndDescendants_lt hlowest; omega)
            have happend : pool.removeEntries (victim :: pool.descendantsOf victim ++ rest) =
                (pool.removeEntryAndDescendants victim).removeEntries rest :=
              removeEntries_append _ _ _
            refine ⟨victim :: pool.descendantsOf victim ++ rest, heq.trans happend.symm, ?_, ?_⟩
            · apply List.append_subset.mpr
              refine ⟨h.descendants_subset (h.yielding_closed candidate)
                (mem_yielding_of_shouldEvict hevict), ?_⟩
              apply List.Subset.trans hrest
              apply (h.removeEntries _).yielding_subset (h.yielding_closed candidate).removeEntries
              exact fun txid hmem ↦ mem_yielding_of_shouldEvict (shouldEvict_of_removeEntries hmem)
            · intro hresult
              obtain ⟨hclosed, hexceeds, hleft⟩ := hfails hresult
              exact ⟨(h.descendants_closed victim).append hclosed, happend ▸ hexceeds,
                happend ▸ hleft⟩
          · rename_i hevict
            exact ⟨[], rfl, List.nil_subset _,
              fun _ ↦ ⟨hclosed, hexceeds, not_shouldEvict_of_lowest hlowest hevict⟩⟩
      · exact ⟨[], rfl, List.nil_subset _, fun hresult ↦ (hresult rfl).elim⟩

/-! ## What stays -/

omit [Crypto] in
theorem entries_removeEntries (pool : Mempool) (txids : List Hash256) :
    (pool.removeEntries txids).entries.entries =
      pool.entries.entries.filter fun entry ↦ decide (entry.1 ∉ txids) := by
  induction txids generalizing pool with
  | nil =>
      symm
      apply List.filter_eq_self.mpr
      intro entry _
      simp
  | cons txid rest ih =>
      have hone : (pool.removeEntry txid).entries.entries =
          pool.entries.entries.filter fun entry ↦ decide (entry.1 ≠ txid) := by
        rw [← EntryMap.entries_erase]
        unfold removeEntry
        split
        · rename_i hnone
          rw [AList.lookup_eq_none] at hnone
          exact (List.kerase_of_notMem_keys hnone).symm
        · rfl
      change ((pool.removeEntry txid).removeEntries rest).entries.entries = _
      rw [ih, hone, List.filter_filter]
      congr 1
      funext entry
      rw [← Bool.decide_and, decide_eq_decide, List.mem_cons, not_or, and_comm]

/-- Room for the candidate stays when more entries are removed. -/
theorem Sound.fits_mono (h : Sound pool) {removed txids : List Hash256}
    (hsub : ∀ txid ∈ pool.txids, txid ∈ removed → txid ∈ txids)
    (hfits : ¬ (pool.removeEntries removed).wouldExceedLimits candidate.size) :
    ¬ (pool.removeEntries txids).wouldExceedLimits candidate.size := by
  have hentries : (pool.removeEntries txids).entries.entries.Sublist
      (pool.removeEntries removed).entries.entries := by
    have hfilter : (pool.removeEntries txids).entries.entries =
        (pool.removeEntries removed).entries.entries.filter
          fun entry ↦ decide (entry.1 ∉ txids) := by
      rw [entries_removeEntries, entries_removeEntries, List.filter_filter]
      apply List.filter_congr
      intro entry hentry
      have hgone := hsub entry.1 (List.mem_keys_of_mem hentry)
      rw [← Bool.decide_and, decide_eq_decide]
      exact ⟨fun hkept ↦ ⟨hkept, fun hremoved ↦ hkept (hgone hremoved)⟩, And.left⟩
    rw [hfilter]
    exact List.filter_sublist
  have hbytes :
      (pool.removeEntries txids).totalBytes ≤ (pool.removeEntries removed).totalBytes := by
    rw [(h.removeEntries txids).bytes, (h.removeEntries removed).bytes]
    exact (hentries.map _).sum_le_sum fun _ _ ↦ Nat.zero_le _
  have hlen : (pool.removeEntries txids).len ≤ (pool.removeEntries removed).len :=
    hentries.length_le
  simp only [wouldExceedLimits, Bool.or_eq_true, decide_eq_true_eq, not_or, not_lt,
    removeEntries_limits] at hfits ⊢
  omega

/-- The loop gives up exactly when all that gives way does not make room. -/
theorem Sound.makeRoomFor_cases (h : Sound pool) (candidate : MempoolEntry) :
    ((pool.makeRoomFor candidate).1 = .ok () ∧
        ¬ (pool.removeEntries (pool.yielding candidate)).wouldExceedLimits candidate.size) ∨
      ((pool.makeRoomFor candidate).1 ≠ .ok () ∧
        (pool.removeEntries (pool.yielding candidate)).wouldExceedLimits candidate.size ∧
        ((pool.makeRoomFor candidate).2 = pool ↔ ∀ txid, ¬ pool.shouldEvict txid candidate)) := by
  obtain ⟨removed, heq, hsub, hfails⟩ := makeRoomLoop_removes candidate (pool.len + 1) pool h
    (Nat.lt_succ_self _)
  by_cases hresult : (pool.makeRoomFor candidate).1 = .ok ()
  · have hroom : pool.makeRoomFor candidate = (.ok (), pool.removeEntries removed) :=
      Prod.ext hresult heq
    exact Or.inl ⟨hresult, h.fits_mono (fun _ _ hremoved ↦ hsub hremoved) (makeRoomFor_fits hroom)⟩
  · obtain ⟨hclosed, hexceeds, hleft⟩ := hfails hresult
    have hall : pool.yielding candidate ⊆ removed := by
      apply h.yielding_subset hclosed
      intro txid hevict
      by_contra hkept
      obtain ⟨entry, hentry, hrank⟩ := shouldEvict_iff.mp hevict
      exact hleft txid (shouldEvict_iff.mpr
        ⟨entry, lookup_removeEntries_iff.mpr ⟨hkept, hentry⟩, hrank⟩)
    refine Or.inr ⟨hresult, ?_, ?_, ?_⟩
    · by_contra hfits
      exact h.fits_mono (fun _ _ hmem ↦ hall hmem) hfits hexceeds
    · intro hsame txid hevict
      rw [← heq] at hleft
      exact hleft txid (hsame.symm ▸ hevict)
    · intro hnone
      have hempty : removed ⊆ [] := by
        apply List.Subset.trans hsub
        apply h.yielding_subset
        · intro txid entry _ input _ hparent
          cases hparent
        · exact fun txid hevict ↦ (hnone txid hevict).elim
      change (makeRoomLoop candidate (pool.len + 1) pool).2 = pool
      rw [heq, List.subset_nil.mp hempty]
      rfl

/-- In every pool that calls lead to, a failed admission leaves the pool alone exactly when no
entry gives way to the transaction that passed the checks, or all that give way make room. -/
theorem acceptTx_error_unchanged_iff (limits : MempoolLimits) (calls : List Call)
    (tx : Transaction) (chainUtxo : UtxoSet) :
    (∀ error, ((runCalls calls (new limits)).acceptTx tx chainUtxo).1 = .error error →
        ((runCalls calls (new limits)).acceptTx tx chainUtxo).2 = runCalls calls (new limits)) ↔
      ∀ fee candidate,
        (runCalls calls (new limits)).validateCandidate tx chainUtxo = .ok (fee, candidate) →
          (∃ txid, (runCalls calls (new limits)).shouldEvict txid candidate) →
            ¬ ((runCalls calls (new limits)).removeEntries
              ((runCalls calls (new limits)).yielding candidate)).wouldExceedLimits
                candidate.size := by
  have h : Sound (runCalls calls (new limits)) :=
    (runCalls_moves calls (new limits)).sound (new_sound limits)
  generalize runCalls calls (new limits) = pool at h
  unfold acceptTx
  cases hvalid : pool.validateCandidate tx chainUtxo with
  | error e => simp
  | ok found =>
      obtain ⟨fee, candidate⟩ := found
      have hcandidate : ∀ p : UInt64 → MempoolEntry → Prop, (∀ fee' candidate',
          (Except.ok (fee, candidate) : Except MempoolError _) = .ok (fee', candidate') →
            p fee' candidate') ↔ p fee candidate := by
        intro p
        simp only [Except.ok.injEq, Prod.mk.injEq, and_imp]
        exact ⟨fun hall ↦ hall fee candidate rfl rfl, by rintro hp _ _ rfl rfl; exact hp⟩
      rw [hcandidate]
      rcases hroom : pool.makeRoomFor candidate with ⟨result, left⟩
      have hcases := h.makeRoomFor_cases candidate
      rw [hroom] at hcases
      simp only [hroom]
      cases result with
      | ok _ =>
          rcases hcases with ⟨-, hfits⟩ | ⟨hresult, -⟩
          · simp [hfits]
          · exact (hresult rfl).elim
      | error e =>
          rcases hcases with ⟨hresult, -⟩ | ⟨-, hexceeds, hunchanged⟩
          · cases hresult
          · simp only [hexceeds, not_true_eq_false, imp_false, not_exists]
            rw [← hunchanged]
            exact ⟨fun hall ↦ hall e rfl, fun hsame _ _ ↦ hsame⟩

end Mempool

end Bitrst

namespace Bitrst.Sample

open Support

/-- Three outputs of 500 that the empty script locks. -/
def purse : UtxoSet :=
  Finmap.insert ⟨coinId0, 0⟩ ⟨500, []⟩ (Finmap.insert ⟨coinId1, 0⟩ ⟨500, []⟩
    (Finmap.insert ⟨coinId2, 0⟩ ⟨500, []⟩ ∅))

/-- Spends the first output of a transaction and pays the amounts to the empty script. -/
def payout (txid : Hash256) (amounts : List UInt64) : Transaction :=
  ⟨1, [⟨txid, 0, [], 0xffffffff⟩], amounts.map fun amount ↦ ⟨amount, []⟩, 0⟩

/-- A full pool of a transaction without a fee and one with a fee of 400. -/
def residents : List Mempool.Call :=
  [.acceptTx (payout coinId0 [500]) purse, .acceptTx (payout coinId1 [100]) purse]

/-- The larger candidate drives out the one without a fee, and then gives up at the other. -/
theorem failed_admission_evicts : ¬ ∀ (limits : MempoolLimits) (calls : List Mempool.Call)
    (tx : Transaction) (chainUtxo : UtxoSet) (error : MempoolError),
    ((Mempool.runCalls calls (Mempool.new limits)).acceptTx tx chainUtxo).1 = .error error →
      ((Mempool.runCalls calls (Mempool.new limits)).acceptTx tx chainUtxo).2 =
        Mempool.runCalls calls (Mempool.new limits) := by
  intro h
  have hfails : ((Mempool.runCalls residents (Mempool.new ⟨100, 120⟩)).acceptTx
      (payout coinId2 [100, 300]) purse).1 = .error .atCapacity := by decide +kernel
  have hlen : (Mempool.runCalls residents (Mempool.new ⟨100, 120⟩)).len = 2 := by decide +kernel
  have hleft : ((Mempool.runCalls residents (Mempool.new ⟨100, 120⟩)).acceptTx
      (payout coinId2 [100, 300]) purse).2.len = 1 := by decide +kernel
  rw [h _ _ _ _ _ hfails, hlen] at hleft
  cases hleft

end Bitrst.Sample
