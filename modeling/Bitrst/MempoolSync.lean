import Bitrst.BlockTransactions
import Bitrst.MempoolClosure

/-!
# Synchronising the pool with the chain

What each stage of a synchronisation does to the entries.  Removing for blocks
takes out the entries that the blocks affect; revalidating leaves a pool that is
valid in order, and keeps what is valid on its own and touched by no other
entry; restoring only adds candidates, and evicts nothing below the limits.
-/

namespace Bitrst

open Support

variable [Crypto]

namespace Mempool

variable {pool : Mempool} {chainUtxo : UtxoSet}

/-! ## Removing for blocks -/

/-- An entry confirmed by a block, spending what a block spends, or spending an
output of a transaction that is affected. -/
inductive Affected (pool : Mempool) (blocks : List Block) : Hash256 → Prop
  | confirmed {block : Block} {tx : Transaction} (hblock : block ∈ blocks)
      (htx : tx ∈ block.transactions) : Affected pool blocks tx.txid
  | conflicts {block : Block} {txid : Hash256} {entry : MempoolEntry} {input : TxInput}
      (hblock : block ∈ blocks) (hentry : pool.entries.lookup txid = some entry)
      (hinput : input ∈ entry.tx.inputs) (hspent : input.outPoint ∈ blockSpends block) :
      Affected pool blocks txid
  | descends {txid : Hash256} {entry : MempoolEntry} {input : TxInput}
      (hentry : pool.entries.lookup txid = some entry) (hinput : input ∈ entry.tx.inputs)
      (hparent : Affected pool blocks input.previousOutput) : Affected pool blocks txid

omit [Crypto] in
theorem spendsRemoved_iff {spent : List OutPoint} {remove : List Hash256} {tx : Transaction} :
    spendsRemoved spent remove tx ↔
      ∃ input ∈ tx.inputs, input.outPoint ∈ spent ∨ input.previousOutput ∈ remove := by
  simp [spendsRemoved]

theorem mem_removedFor_iff {block : Block} {txid : Hash256} :
    txid ∈ pool.removedFor block ↔
      Saturated Sigma.fst
        (fun remove (entry : Sigma fun _ : Hash256 ↦ MempoolEntry) ↦
          spendsRemoved (blockSpends block) remove entry.2.tx)
        pool.entries.entries (block.transactions.map Transaction.txid) txid := by
  apply mem_saturateLoop_iff
  intro found found' entry hsub hhit
  obtain ⟨input, hinput, hcases⟩ := spendsRemoved_iff.mp hhit
  exact spendsRemoved_iff.mpr ⟨input, hinput, hcases.imp_right fun h ↦ hsub h⟩

theorem confirmed_mem_removedFor {block : Block} {tx : Transaction}
    (htx : tx ∈ block.transactions) : tx.txid ∈ pool.removedFor block :=
  mem_removedFor_iff.mpr (.start (List.mem_map_of_mem htx))

/-- An entry that is hit by what is removed is removed. -/
theorem hit_mem_removedFor {block : Block} {txid : Hash256} {entry : MempoolEntry}
    {input : TxInput} (hentry : pool.entries.lookup txid = some entry)
    (hinput : input ∈ entry.tx.inputs)
    (hhit : input.outPoint ∈ blockSpends block ∨
      input.previousOutput ∈ pool.removedFor block) :
    txid ∈ pool.removedFor block :=
  mem_removedFor_iff.mpr (.item
    (fun txid (h : txid ∈ pool.removedFor block) ↦ mem_removedFor_iff.mp h)
    (EntryMap.mem_entries_iff.mpr hentry) (spendsRemoved_iff.mpr ⟨input, hinput, hhit⟩))

/-- Everything removed for a list of blocks, one after the other. -/
def removedForAll : List Block → Mempool → List Hash256
  | [], _ => []
  | block :: rest, pool => pool.removedFor block ++ removedForAll rest (pool.removeForBlock block)

theorem mem_removedForAll_cons {first : Block} {rest : List Block} {txid : Hash256} :
    txid ∈ removedForAll (first :: rest) pool ↔
      txid ∈ pool.removedFor first ∨ txid ∈ removedForAll rest (pool.removeForBlock first) :=
  List.mem_append

theorem foldl_removeForBlock (blocks : List Block) (pool : Mempool) :
    blocks.foldl removeForBlock pool = pool.removeEntries (removedForAll blocks pool) := by
  induction blocks generalizing pool with
  | nil => rfl
  | cons block rest ih =>
      rw [List.foldl_cons, ih, removedForAll, removeEntries_append]
      rfl

/-- An entry is removed at the turn of a block, unless it was removed before. -/
theorem mem_removedForAll_of_hit {blocks : List Block} {block : Block} (hblock : block ∈ blocks)
    {txid : Hash256} {entry : MempoolEntry} (hentry : pool.entries.lookup txid = some entry)
    (hhit : ∀ pool' : Mempool, pool'.entries.lookup txid = some entry →
      txid ∈ pool'.removedFor block) : txid ∈ removedForAll blocks pool := by
  induction blocks generalizing pool with
  | nil => cases hblock
  | cons first rest ih =>
      rw [mem_removedForAll_cons]
      rcases List.mem_cons.mp hblock with rfl | hrest
      · exact Or.inl (hhit pool hentry)
      · by_cases hremoved : txid ∈ pool.removedFor first
        · exact Or.inl hremoved
        · exact Or.inr (ih hrest (lookup_removeEntries_iff.mpr ⟨hremoved, hentry⟩))

theorem confirmed_mem_removedForAll {blocks : List Block} {block : Block} (hblock : block ∈ blocks)
    {tx : Transaction} (htx : tx ∈ block.transactions) :
    tx.txid ∈ removedForAll blocks pool := by
  induction blocks generalizing pool with
  | nil => cases hblock
  | cons first rest ih =>
      rw [mem_removedForAll_cons]
      rcases List.mem_cons.mp hblock with rfl | hrest
      · exact Or.inl (confirmed_mem_removedFor htx)
      · exact Or.inr (ih hrest)

/-- What spends from a removed transaction is removed with it or before it. -/
theorem spender_mem_removedForAll {blocks : List Block} {txid : Hash256} {entry : MempoolEntry}
    {input : TxInput} (hentry : pool.entries.lookup txid = some entry)
    (hinput : input ∈ entry.tx.inputs)
    (hparent : input.previousOutput ∈ removedForAll blocks pool) :
    txid ∈ removedForAll blocks pool := by
  induction blocks generalizing pool with
  | nil => cases hparent
  | cons first rest ih =>
      rw [mem_removedForAll_cons] at hparent ⊢
      by_cases hremoved : txid ∈ pool.removedFor first
      · exact Or.inl hremoved
      · rcases hparent with hfirst | hrest
        · exact Or.inl (hit_mem_removedFor hentry hinput (Or.inr hfirst))
        · exact Or.inr (ih (lookup_removeEntries_iff.mpr ⟨hremoved, hentry⟩) hrest)

theorem affected_of_mem_removedForAll {all : List Block} {base : Mempool} {blocks : List Block}
    (hblocks : blocks ⊆ all)
    (hpool : ∀ txid entry, pool.entries.lookup txid = some entry →
      base.entries.lookup txid = some entry) {txid : Hash256}
    (h : txid ∈ removedForAll blocks pool) : Affected base all txid := by
  induction blocks generalizing pool with
  | nil => cases h
  | cons first rest ih =>
      rw [mem_removedForAll_cons] at h
      rcases h with hfirst | hrest
      · have hsaturated := mem_removedFor_iff.mp hfirst
        clear hfirst ih
        induction hsaturated with
        | start ha =>
            obtain ⟨tx, htx, rfl⟩ := List.mem_map.mp ha
            exact .confirmed (hblocks List.mem_cons_self) htx
        | @item found _ _ hentry hhit ihfound =>
            obtain ⟨input, hinput, hcases⟩ := spendsRemoved_iff.mp hhit
            have hbase := hpool _ _ (EntryMap.mem_entries_iff.mp hentry)
            rcases hcases with hspent | hparent
            · exact .conflicts (hblocks List.mem_cons_self) hbase hinput hspent
            · exact .descends hbase hinput (ihfound _ hparent)
      · refine ih (fun b hb ↦ hblocks (List.mem_cons_of_mem _ hb)) ?_ hrest
        exact fun key entry hentry ↦ hpool key entry (lookup_removeEntries_iff.mp hentry).2

/-- Removing for blocks takes out exactly what they affect. -/
theorem mem_removedForAll_iff {blocks : List Block} {txid : Hash256} :
    txid ∈ removedForAll blocks pool ↔ Affected pool blocks txid := by
  constructor
  · exact affected_of_mem_removedForAll (List.Subset.refl _) fun _ _ h ↦ h
  · intro h
    induction h with
    | confirmed hblock htx => exact confirmed_mem_removedForAll hblock htx
    | conflicts hblock hentry hinput hspent =>
        exact mem_removedForAll_of_hit hblock hentry fun _ hentry ↦
          hit_mem_removedFor hentry hinput (Or.inl hspent)
    | descends hentry hinput _ ih => exact spender_mem_removedForAll hentry hinput ih

/-! ## Revalidating -/

/-- Whether a transaction is valid depends only on the outputs it spends. -/
theorem isValidForView_congr {view view' : UtxoSet} {tx : Transaction}
    (h : ∀ input ∈ tx.inputs, view.lookup input.outPoint = view'.lookup input.outPoint) :
    isValidForView tx view = isValidForView tx view' := by
  unfold isValidForView UtxoSet.validateTransaction verifyScripts
  rw [UtxoSet.inputSum_congr h, Chain.prevScripts_congr h]

/-- The entry touches none of the outputs that the other spends. -/
def Untouched (entry other : MempoolEntry) : Prop :=
  ∀ input ∈ entry.tx.inputs, input.outPoint ∉ other.tx.patch.spends ∧
    input.outPoint ∉ other.tx.patch.writes.map Prod.fst

theorem mem_findInvalidLoop {entries : List MempoolEntry} {view : UtxoSet} {txid : Hash256}
    (h : txid ∈ findInvalidLoop entries view) : ∃ entry ∈ entries, entry.tx.txid = txid := by
  induction entries generalizing view with
  | nil => cases h
  | cons entry rest ih =>
      unfold findInvalidLoop at h
      split at h
      · obtain ⟨found, hfound, heq⟩ := ih h
        exact ⟨found, List.mem_cons_of_mem _ hfound, heq⟩
      · rcases List.mem_cons.mp h with rfl | h
        · exact ⟨entry, List.mem_cons_self, rfl⟩
        · obtain ⟨found, hfound, heq⟩ := ih h
          exact ⟨found, List.mem_cons_of_mem _ hfound, heq⟩

/-- An entry that is valid on its own is not found invalid among entries that
do not touch what it spends. -/
theorem notMem_findInvalidLoop {entry : MempoolEntry} {entries : List MempoolEntry}
    {view : UtxoSet} (hnodup : entries.Nodup) (hvalid : isValidForView entry.tx chainUtxo)
    (hview : ∀ input ∈ entry.tx.inputs,
      view.lookup input.outPoint = chainUtxo.lookup input.outPoint)
    (hothers : ∀ other ∈ entries, other ≠ entry →
      other.tx.txid ≠ entry.tx.txid ∧ Untouched entry other) :
    entry.tx.txid ∉ findInvalidLoop entries view := by
  induction entries generalizing view with
  | nil => simp [findInvalidLoop]
  | cons first rest ih =>
      obtain ⟨hfirst, hnodup⟩ := List.nodup_cons.mp hnodup
      by_cases heq : first = entry
      · subst heq
        have hrest : ∀ view, first.tx.txid ∉ findInvalidLoop rest view := by
          intro view hmem
          obtain ⟨other, hother, htxid⟩ := mem_findInvalidLoop hmem
          have hne : other ≠ first := fun heq ↦ hfirst (heq ▸ hother)
          exact (hothers other (List.mem_cons_of_mem _ hother) hne).1 htxid
        unfold findInvalidLoop
        rw [isValidForView_congr hview, if_pos hvalid]
        exact hrest _
      · obtain ⟨hne, huntouched⟩ := hothers first List.mem_cons_self heq
        have hrest : ∀ other ∈ rest, other ≠ entry →
            other.tx.txid ≠ entry.tx.txid ∧ Untouched entry other :=
          fun other hother ↦ hothers other (List.mem_cons_of_mem _ hother)
        unfold findInvalidLoop
        split
        · refine ih hnodup (fun input hinput ↦ ?_) hrest
          obtain ⟨hspend, hwrite⟩ := huntouched input hinput
          rw [UtxoSet.applyTransaction, Patch.lookup_apply_of_notMem _ _ hwrite, if_neg hspend]
          exact hview input hinput
        · intro hmem
          rcases List.mem_cons.mp hmem with heq | hmem
          · exact hne heq.symm
          · exact ih hnodup hview hrest hmem

theorem ordered_nodup (h : Sound pool) : pool.ordered.Nodup := by
  unfold ordered
  rw [(List.perm_insertionSort _ _).nodup_iff]
  refine List.Nodup.map_on ?_ pool.entries.nodupKeys.nodup
  rintro ⟨txid, entry⟩ hentry ⟨txid', _⟩ hentry' rfl
  rw [EntryMap.mem_entries_iff] at hentry hentry'
  rw [← h.key txid entry hentry, ← h.key txid' entry hentry']

theorem findInvalid_entry (h : Sound pool) {txid : Hash256}
    (hinvalid : txid ∈ pool.findInvalidTxids chainUtxo) :
    ∃ entry, pool.entries.lookup txid = some entry := by
  obtain ⟨entry, hentry, rfl⟩ := mem_findInvalidLoop hinvalid
  obtain ⟨key, hkey⟩ := mem_ordered.mp hentry
  exact ⟨entry, h.key key entry hkey ▸ hkey⟩

/-- Revalidating removes entries until none is found invalid. -/
theorem revalidateLoop_spec (chainUtxo : UtxoSet) (n : ℕ) (pool : Mempool) (h : Sound pool)
    (hfuel : pool.len < n) :
    (∃ txids, revalidateLoop chainUtxo n pool = pool.removeEntries txids) ∧
      (revalidateLoop chainUtxo n pool).findInvalidTxids chainUtxo = [] := by
  induction n generalizing pool with
  | zero => omega
  | succ n ih =>
      unfold revalidateLoop
      simp only
      split
      · rename_i hnone
        exact ⟨⟨[], rfl⟩, List.isEmpty_iff.mp hnone⟩
      · rename_i hsome
        obtain ⟨txid, rest, hinvalid⟩ :=
          List.exists_cons_of_ne_nil fun hnil ↦ hsome (List.isEmpty_iff.mpr hnil)
        have hless : (pool.removeEntries (pool.findInvalidTxids chainUtxo)).len < pool.len := by
          have hfirst : txid ∈ pool.findInvalidTxids chainUtxo := hinvalid ▸ List.mem_cons_self
          obtain ⟨entry, hentry⟩ := findInvalid_entry h hfirst
          rw [hinvalid]
          exact (len_removeEntries_le (pool.removeEntry txid) rest).trans_lt
            (len_removeEntry_lt hentry)
        obtain ⟨⟨txids, hremoved⟩, hvalid⟩ :=
          ih (pool.removeEntries (pool.findInvalidTxids chainUtxo)) (h.removeEntries _) (by omega)
        exact ⟨⟨pool.findInvalidTxids chainUtxo ++ txids, by
          rw [hremoved, removeEntries_append]⟩, hvalid⟩

/-- Entries that stay valid as long as none of them is removed survive. -/
theorem revalidateLoop_keeps {keep : Hash256 → Prop} (n : ℕ) (h : Sound pool)
    (hstays : ∀ current : Mempool, Sound current →
      (∀ key found, current.entries.lookup key = some found →
        pool.entries.lookup key = some found) →
          (∀ txid entry, keep txid → pool.entries.lookup txid = some entry →
            current.entries.lookup txid = some entry) →
              ∀ txid, keep txid → txid ∉ current.findInvalidTxids chainUtxo)
    {txid : Hash256} {entry : MempoolEntry} (hkeep : keep txid)
    (hentry : pool.entries.lookup txid = some entry) :
    (revalidateLoop chainUtxo n pool).entries.lookup txid = some entry := by
  have hloop : ∀ (n : ℕ) (current : Mempool), Sound current →
      (∀ key found, current.entries.lookup key = some found →
        pool.entries.lookup key = some found) →
          (∀ txid entry, keep txid → pool.entries.lookup txid = some entry →
            current.entries.lookup txid = some entry) →
              (revalidateLoop chainUtxo n current).entries.lookup txid = some entry := by
    intro n
    induction n with
    | zero => exact fun _ _ _ hcurrent ↦ hcurrent txid entry hkeep hentry
    | succ n ih =>
        intro current hsound hsub hcurrent
        unfold revalidateLoop
        simp only
        split
        · exact hcurrent txid entry hkeep hentry
        · refine ih _ (hsound.removeEntries _) ?_ ?_
          · exact fun key found hfound ↦ hsub key found (lookup_removeEntries_iff.mp hfound).2
          · exact fun key found hkey hfound ↦ lookup_removeEntries_iff.mpr
              ⟨hstays current hsound hsub hcurrent key hkey, hcurrent key found hkey hfound⟩
  exact hloop n pool h (fun _ _ h ↦ h) fun _ _ _ h ↦ h

theorem revalidatePool_spec (h : Sound pool) (chainUtxo : UtxoSet) :
    (∃ txids, pool.revalidatePool chainUtxo = pool.removeEntries txids) ∧
      (pool.revalidatePool chainUtxo).findInvalidTxids chainUtxo = [] :=
  revalidateLoop_spec chainUtxo _ pool h (Nat.lt_succ_self _)

/-- The oldest entry of a pool that is valid in order is valid on its own. -/
theorem exists_valid_of_ne_nil (hvalid : pool.findInvalidTxids chainUtxo = [])
    (hne : pool.ordered ≠ []) :
    ∃ txid entry, pool.entries.lookup txid = some entry ∧ isValidForView entry.tx chainUtxo := by
  obtain ⟨entry, rest, hordered⟩ := List.exists_cons_of_ne_nil hne
  obtain ⟨txid, hentry⟩ := mem_ordered.mp (hordered ▸ List.mem_cons_self : entry ∈ pool.ordered)
  refine ⟨txid, entry, hentry, ?_⟩
  by_contra hinvalid
  unfold findInvalidTxids at hvalid
  rw [hordered, findInvalidLoop, if_neg hinvalid] at hvalid
  cases hvalid

/-! ## Restoring -/

/-- An entry after an offer was there before, or it is the one offered. -/
theorem acceptTx_entry {tx : Transaction} {txid : Hash256} {entry : MempoolEntry}
    (h : (pool.acceptTx tx chainUtxo).2.entries.lookup txid = some entry) :
    pool.entries.lookup txid = some entry ∨ txid = tx.txid := by
  rcases acceptTx_cases pool tx chainUtxo with
    ⟨e, txids, heq⟩ | ⟨fee, candidate, txids, -, -, heq⟩
  · rw [heq] at h
    exact Or.inl (lookup_removeEntries_iff.mp h).2
  · rw [heq] at h
    change AList.lookup txid (AList.insert tx.txid candidate (pool.removeEntries txids).entries) =
      some entry at h
    rw [EntryMap.lookup_insert_ite] at h
    split at h
    · exact Or.inr ‹_›
    · exact Or.inl (lookup_removeEntries_iff.mp h).2

/-- Below the limits an offer is refused and leaves the pool as it is, or adds its entry. -/
theorem acceptTx_offer {tx : Transaction}
    (hlimits : ¬ pool.wouldExceedLimits tx.serializedSize) :
    (∃ e, pool.validateCandidate tx chainUtxo = .error e ∧
      pool.acceptTx tx chainUtxo = (.error e, pool)) ∨
    ∃ fee candidate, pool.validateCandidate tx chainUtxo = .ok (fee, candidate) ∧
      pool.acceptTx tx chainUtxo =
        (.ok ⟨tx.txid, fee, candidate.size⟩, pool.insertEntry tx.txid candidate) := by
  unfold acceptTx
  cases hvalid : pool.validateCandidate tx chainUtxo with
  | error e => exact Or.inl ⟨e, rfl, rfl⟩
  | ok found =>
      obtain ⟨fee, candidate⟩ := found
      have hfits := (validateCandidate_ok hvalid).size_eq ▸ hlimits
      have hroom : pool.makeRoomFor candidate = (.ok (), pool) :=
        makeRoomFor_ok_iff.mpr ⟨[], .fits hfits, rfl⟩
      simp only [hroom]
      exact Or.inr ⟨fee, candidate, rfl, rfl⟩

/-- Below the limits an offer evicts nothing. -/
theorem acceptTx_keeps {tx : Transaction} (hlimits : ¬ pool.wouldExceedLimits tx.serializedSize)
    {txid : Hash256} {entry : MempoolEntry} (hentry : pool.entries.lookup txid = some entry) :
    (pool.acceptTx tx chainUtxo).2.entries.lookup txid = some entry := by
  rcases acceptTx_offer hlimits with ⟨e, -, heq⟩ | ⟨fee, candidate, hvalid, heq⟩
  · rwa [heq]
  · rw [heq]
    apply (EntryMap.lookup_insert_ite _ _ _ _).trans
    rw [if_neg, hentry]
    rintro rfl
    rw [(validateCandidate_ok hvalid).fresh] at hentry
    cases hentry

/-- The offers of one turn, each with the pool that it meets. -/
def passOffers (chainUtxo : UtxoSet) : List Transaction → Mempool → List (Mempool × Transaction)
  | [], _ => []
  | tx :: rest, pool => (pool, tx) :: passOffers chainUtxo rest (pool.acceptTx tx chainUtxo).2

/-- The offers of `restore_candidates`, following `restoreLoop`. -/
def loopOffers (chainUtxo : UtxoSet) :
    ℕ → List Transaction → Mempool → List (Mempool × Transaction)
  | 0, _, _ => []
  | n + 1, pending, pool =>
      let (remaining, restored) := restorePass chainUtxo pending pool
      passOffers chainUtxo pending pool ++
        if remaining.length = pending.length ∨ remaining.isEmpty then []
        else loopOffers chainUtxo n remaining restored

/-- No offer meets a pool without room for it. -/
def RestoresBelowLimits (pool : Mempool) (candidates : List Transaction) (chainUtxo : UtxoSet) :
    Prop :=
  ∀ offer ∈ loopOffers chainUtxo (candidates.length + 1) candidates pool,
    ¬ offer.1.wouldExceedLimits offer.2.serializedSize

theorem restorePass_cons (tx : Transaction) (rest : List Transaction) (pool : Mempool) :
    (restorePass chainUtxo (tx :: rest) pool).2 =
      (restorePass chainUtxo rest (pool.acceptTx tx chainUtxo).2).2 := by
  rw [restorePass]
  cases pool.acceptTx tx chainUtxo with
  | mk result next => cases result <;> rfl

theorem restorePass_remaining (chainUtxo : UtxoSet) (pending : List Transaction) (pool : Mempool) :
    (restorePass chainUtxo pending pool).1.Sublist pending := by
  induction pending generalizing pool with
  | nil => exact .refl []
  | cons tx rest ih =>
      rw [restorePass]
      cases pool.acceptTx tx chainUtxo with
      | mk result next =>
          cases result with
          | ok _ => exact (ih next).cons tx
          | error _ => exact (ih next).cons_cons tx

theorem restorePass_entry {pending : List Transaction} {txid : Hash256} {entry : MempoolEntry}
    (h : (restorePass chainUtxo pending pool).2.entries.lookup txid = some entry) :
    pool.entries.lookup txid = some entry ∨ txid ∈ pending.map Transaction.txid := by
  induction pending generalizing pool with
  | nil => exact Or.inl h
  | cons tx rest ih =>
      rw [restorePass_cons] at h
      rw [List.map_cons, List.mem_cons]
      rcases ih h with hold | hrest
      · rcases acceptTx_entry hold with hentry | rfl
        · exact Or.inl hentry
        · exact Or.inr (Or.inl rfl)
      · exact Or.inr (Or.inr hrest)

theorem restorePass_keeps {pending : List Transaction} {txid : Hash256} {entry : MempoolEntry}
    (hlimits : ∀ offer ∈ passOffers chainUtxo pending pool,
      ¬ offer.1.wouldExceedLimits offer.2.serializedSize)
    (hentry : pool.entries.lookup txid = some entry) :
    (restorePass chainUtxo pending pool).2.entries.lookup txid = some entry := by
  induction pending generalizing pool with
  | nil => exact hentry
  | cons tx rest ih =>
      rw [restorePass_cons]
      exact ih (fun offer hoffer ↦ hlimits offer (List.mem_cons_of_mem _ hoffer))
        (acceptTx_keeps (hlimits (pool, tx) List.mem_cons_self) hentry)

/-- An entry of the restored pool was there before or is a candidate. -/
theorem restoreCandidates_entry {candidates : List Transaction} {txid : Hash256}
    {entry : MempoolEntry}
    (h : (pool.restoreCandidates candidates chainUtxo).entries.lookup txid = some entry) :
    pool.entries.lookup txid = some entry ∨ txid ∈ candidates.map Transaction.txid := by
  have hloop : ∀ (n : ℕ) (pending : List Transaction) (pool : Mempool),
      (restoreLoop chainUtxo n pending pool).entries.lookup txid = some entry →
        pool.entries.lookup txid = some entry ∨ txid ∈ pending.map Transaction.txid := by
    intro n
    induction n with
    | zero => exact fun _ _ h ↦ Or.inl h
    | succ n ih =>
        intro pending pool h
        unfold restoreLoop at h
        simp only at h
        split at h
        · exact restorePass_entry h
        · rcases ih _ _ h with hold | hremaining
          · exact restorePass_entry hold
          · exact Or.inr (List.map_subset _
              (restorePass_remaining chainUtxo pending pool).subset hremaining)
  exact hloop _ candidates pool h

/-- Below the limits restoring keeps every entry. -/
theorem restoreCandidates_keeps {candidates : List Transaction} {txid : Hash256}
    {entry : MempoolEntry} (hlimits : RestoresBelowLimits pool candidates chainUtxo)
    (hentry : pool.entries.lookup txid = some entry) :
    (pool.restoreCandidates candidates chainUtxo).entries.lookup txid = some entry := by
  have hloop : ∀ (n : ℕ) (pending : List Transaction) (pool : Mempool),
      (∀ offer ∈ loopOffers chainUtxo n pending pool,
        ¬ offer.1.wouldExceedLimits offer.2.serializedSize) →
        pool.entries.lookup txid = some entry →
          (restoreLoop chainUtxo n pending pool).entries.lookup txid = some entry := by
    intro n
    induction n with
    | zero => exact fun _ _ _ h ↦ h
    | succ n ih =>
        intro pending pool hlimits hentry
        unfold loopOffers at hlimits
        simp only at hlimits
        have hpass : (restorePass chainUtxo pending pool).2.entries.lookup txid = some entry :=
          restorePass_keeps
            (fun offer hoffer ↦ hlimits offer (List.mem_append_left _ hoffer)) hentry
        unfold restoreLoop
        simp only
        split
        · exact hpass
        · rename_i hmore
          rw [if_neg hmore] at hlimits
          exact ih _ _ (fun offer hoffer ↦ hlimits offer (List.mem_append_right _ hoffer)) hpass
  exact hloop _ candidates pool hlimits hentry

/-- A sound pool without entries is as good as new. -/
theorem Sound.eq_blank (h : Sound pool) (hempty : ∀ txid, pool.entries.lookup txid = none) :
    pool = { new pool.limits with nextSeq := pool.nextSeq } := by
  have hentries : pool.entries = ∅ := by
    apply AList.ext
    change pool.entries.entries = []
    apply List.eq_nil_iff_forall_not_mem.mpr
    rintro ⟨txid, entry⟩ hmem
    rw [EntryMap.mem_entries_iff, hempty] at hmem
    cases hmem
  have hspends : pool.spends = ∅ := by
    apply AList.ext
    change pool.spends.entries = []
    apply List.eq_nil_iff_forall_not_mem.mpr
    rintro ⟨outpoint, owner⟩ hmem
    obtain ⟨entry, hentry, -⟩ := (h.spends_iff _ _).mp (EntryMap.mem_entries_iff.mp hmem)
    rw [hempty] at hentry
    cases hentry
  have hbytes : pool.totalBytes = 0 := by
    rw [h.bytes, entryBytes, hentries]
    rfl
  obtain ⟨limits, entries, spends, totalBytes, nextSeq⟩ := pool
  simp only at hentries hspends hbytes
  subst hentries hspends hbytes
  rfl

end Mempool

end Bitrst
