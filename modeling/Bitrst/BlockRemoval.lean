import Bitrst.MempoolResync

/-!
# Removing for a connected block

`remove_for_block` follows two kinds of links from the block into the pool, conflicts and
spends of confirmed outputs.  Only the first kind makes an entry invalid: the
removal is exact where every entry that spends an output of the block is in the block
itself or goes with a conflict.
-/

namespace Bitrst

open Support

variable [Crypto]

namespace Mempool

variable {pool : Mempool} {block : Block}

/-- The entry is none of the block, and spends what the block spends or an output of such an
entry. -/
inductive Conflicted (pool : Mempool) (block : Block) : Hash256 → Prop
  | spends {txid : Hash256} {entry : MempoolEntry} {input : TxInput}
      (hentry : pool.entries.lookup txid = some entry)
      (hother : txid ∉ block.transactions.map Transaction.txid)
      (hinput : input ∈ entry.tx.inputs) (hspent : input.outPoint ∈ blockSpends block) :
      Conflicted pool block txid
  | descends {txid : Hash256} {entry : MempoolEntry} {input : TxInput}
      (hentry : pool.entries.lookup txid = some entry) (hinput : input ∈ entry.tx.inputs)
      (hparent : Conflicted pool block input.previousOutput) : Conflicted pool block txid

/-- Conflicts start at an entry that spends what the block spends. -/
theorem not_conflicted (h : ∀ txid entry, pool.entries.lookup txid = some entry →
    txid ∉ block.transactions.map Transaction.txid → ∀ input ∈ entry.tx.inputs,
      input.outPoint ∉ blockSpends block) (txid : Hash256) : ¬ Conflicted pool block txid := by
  intro hconflicted
  induction hconflicted with
  | spends hentry hother hinput hspent => exact h _ _ hentry hother _ hinput hspent
  | descends _ _ _ ih => exact ih

/-- The entries of the block and those that a conflict with it invalidates. -/
def Obsolete (pool : Mempool) (block : Block) (txid : Hash256) : Prop :=
  txid ∈ block.transactions.map Transaction.txid ∨ Conflicted pool block txid

/-- Connecting the block removes the obsolete entries and no others. -/
def RemovesExactly (pool : Mempool) (block : Block) : Prop :=
  ∀ txid, pool.contains txid →
    (¬ (pool.removeForBlock block).contains txid ↔ Obsolete pool block txid)

/-- No entry that stays good spends an output of the block. -/
def NoneAwaits (pool : Mempool) (block : Block) : Prop :=
  ∀ txid entry, pool.entries.lookup txid = some entry → ¬ Obsolete pool block txid →
    ∀ input ∈ entry.tx.inputs, input.previousOutput ∉ block.transactions.map Transaction.txid

theorem contains_removeForBlock {txid : Hash256} (h : pool.contains txid) :
    ¬ (pool.removeForBlock block).contains txid ↔ txid ∈ pool.removedFor block := by
  unfold contains at h ⊢
  rw [removeForBlock, lookup_removeEntries]
  by_cases hgone : txid ∈ pool.removedFor block
  · simp [hgone]
  · simp [hgone, h]

theorem Conflicted.mem_removedFor {txid : Hash256} (h : Conflicted pool block txid) :
    txid ∈ pool.removedFor block := by
  induction h with
  | spends hentry _ hinput hspent => exact hit_mem_removedFor hentry hinput (Or.inl hspent)
  | descends hentry hinput _ ih => exact hit_mem_removedFor hentry hinput (Or.inr ih)

theorem Obsolete.mem_removedFor {txid : Hash256} (h : Obsolete pool block txid) :
    txid ∈ pool.removedFor block := by
  rcases h with hconfirmed | hconflicted
  · obtain ⟨tx, htx, rfl⟩ := List.mem_map.mp hconfirmed
    exact confirmed_mem_removedFor htx
  · exact hconflicted.mem_removedFor

/-- Where no good entry spends an output of the block, only obsolete ones are removed. -/
theorem obsolete_of_mem_removedFor (hnone : NoneAwaits pool block) {txid : Hash256}
    (h : txid ∈ pool.removedFor block) : Obsolete pool block txid := by
  have hsaturated := mem_removedFor_iff.mp h
  clear h
  induction hsaturated with
  | start hconfirmed => exact Or.inl hconfirmed
  | @item found removed _ hfound hhit ih =>
      obtain ⟨txid, entry⟩ := found
      have hentry := EntryMap.mem_entries_iff.mp hfound
      obtain ⟨input, hinput, hspent | hparent⟩ := spendsRemoved_iff.mp hhit
      · by_cases hconfirmed : txid ∈ block.transactions.map Transaction.txid
        · exact Or.inl hconfirmed
        · exact Or.inr (.spends hentry hconfirmed hinput hspent)
      · by_contra hgood
        rcases ih _ hparent with hconfirmed | hconflicted
        · exact hnone txid entry hentry hgood input hinput hconfirmed
        · exact hgood (Or.inr (.descends hentry hinput hconflicted))

/-- The removal for a block is exact exactly when every entry that spends an output of the
block is obsolete itself. -/
theorem removeForBlock_exact_iff (pool : Mempool) (block : Block) :
    RemovesExactly pool block ↔ NoneAwaits pool block := by
  constructor
  · intro hexact txid entry hentry hgood input hinput hconfirmed
    have hresident : pool.contains txid := by
      rw [contains, hentry]
      rfl
    obtain ⟨tx, htx, heq⟩ := List.mem_map.mp hconfirmed
    have hparent : input.previousOutput ∈ pool.removedFor block :=
      heq ▸ confirmed_mem_removedFor htx
    have hremoved := hit_mem_removedFor hentry hinput (Or.inr hparent)
    exact hgood ((hexact txid hresident).mp ((contains_removeForBlock hresident).mpr hremoved))
  · intro hnone txid hresident
    rw [contains_removeForBlock hresident]
    exact ⟨obsolete_of_mem_removedFor hnone, Obsolete.mem_removedFor⟩

end Mempool

end Bitrst

namespace Bitrst.Sample

open Support

theorem family_synchronised : Mempool.Synchronised family start where
  sound := (Mempool.new_sound _).acceptAll _
  unconfirmed := by
    intro txid entry hentry b hb tx htx heq
    have hkey : txid ∈ family.entries.entries.keys :=
      List.mem_keys_of_mem (EntryMap.mem_entries_iff.mpr hentry)
    rw [family_entries] at hkey
    rw [show b = genesis from List.mem_singleton.mp hb] at htx
    rw [show tx = coin 0 from List.mem_singleton.mp htx] at heq
    rw [← heq] at hkey
    revert hkey
    decide +kernel
  valid := by decide +kernel

/-- The child of the confirmed parent is dropped with it, though it spends what is unspent now. -/
theorem child_of_confirmed_removed : ¬ ∀ (chain : Chain) (pool : Mempool) (block : Block),
    Chain.Reachable genesis chain → Mempool.Synchronised pool chain →
      Chain.validateBlockTransactionsForUtxo block chain.utxo = .ok () →
        Mempool.RemovesExactly pool block := by
  intro h
  have hexact := h start family confirming start_reachable family_synchronised (by decide +kernel)
  have hnone := (Mempool.removeForBlock_exact_iff family confirming).mp hexact
  have hparent : parentTx.txid ∈ confirming.transactions.map Transaction.txid :=
    List.mem_map_of_mem (List.mem_cons_of_mem _ List.mem_cons_self)
  have hfree : ¬ Mempool.Conflicted family confirming childTx.txid := by
    apply Mempool.not_conflicted
    intro txid entry hentry hother input hinput
    have hmem := EntryMap.mem_entries_iff.mpr hentry
    rw [family_entries] at hmem
    rcases List.mem_cons.mp hmem with heq | hmem
    · obtain ⟨-, rfl⟩ := Sigma.mk.inj heq
      rw [List.mem_singleton.mp hinput]
      decide +kernel
    · have hkey : txid = parentTx.txid := congrArg Sigma.fst (List.mem_singleton.mp hmem)
      rw [hkey] at hother
      exact (hother hparent).elim
  have hgood : ¬ Mempool.Obsolete family confirming childTx.txid := by
    rintro (hconfirmed | hconflicted)
    · revert hconfirmed
      decide +kernel
    · exact hfree hconflicted
  have hentry : family.entries.lookup childTx.txid = some ⟨childTx, 0, 60, 1⟩ := by decide +kernel
  exact hnone _ _ hentry hgood ⟨parentTx.txid, 0, [], 0xffffffff⟩ List.mem_cons_self hparent

end Bitrst.Sample
