import Bitrst.HeaderValidation

/-!
# The block index and the two moves of the tip

Everything that happens to the active chain is a block pushed on top of the
tip or the tip popped off.  `Indexed` is the coherence of the active list, the
active hashes and the block index; both moves keep it, so it also holds in the
middle of a reorganisation.
-/

namespace Bitrst

open Support

variable [Crypto]

namespace Chain

/-- Coherence of the three indices of the active chain. -/
structure Indexed (genesis : Block) (chain : Chain) : Prop where
  head : chain.blocks.head? = some genesis
  linked : chain.blocks.IsChain fun parent child ↦ child.header.prevBlockhash = parent.hash
  active_iff : ∀ hash, hash ∈ chain.activeHashes ↔ ∃ b ∈ chain.blocks, b.hash = hash
  active_known : ∀ i b, chain.blocks[i]? = some b →
    ∃ entry, chain.known.lookup b.hash = some entry ∧ entry.block = b ∧ entry.height = i
  known_hash : ∀ hash entry, chain.known.lookup hash = some entry → entry.block.hash = hash
  known_parent : ∀ hash entry, chain.known.lookup hash = some entry → hash = genesis.hash ∨
    ∃ parent, chain.known.lookup entry.block.header.prevBlockhash = some parent ∧
      entry.height = parent.height + 1

/-- The undo data recorded under a hash. -/
def undoOf (chain : Chain) (hash : Hash256) : List TxUndo :=
  ((chain.known.lookup hash).map BlockMeta.undo).getD []

/-- What `disconnect_tip_block` does when the tip is indexed. -/
def popTip (chain : Chain) (block : Block) : Chain :=
  { chain with
    blocks := chain.blocks.dropLast
    activeHashes := chain.activeHashes.erase block.hash
    utxo := revertAll (chain.undoOf block.hash) chain.utxo
    totalWork :=
      ((chain.blocks.dropLast.getLast?.bind fun tip ↦ chain.known.lookup tip.hash).map
        BlockMeta.work).getD ChainWork.zero
    eventJournal := chain.eventJournal.push
      (.blockDisconnected (chain.blocks.dropLast.length - 1 + 1) block.hash)
    disconnectedJournal := chain.disconnectedJournal.record chain.eventJournal.nextSeq block }

/-- The listed blocks popped, the last one first. -/
def rewind (blocks : List Block) (chain : Chain) : Chain :=
  blocks.foldr (fun block chain ↦ chain.popTip block) chain

/-! ## Small facts -/

theorem tipHash_of_append {chain : Chain} (keep : List Block) {tip : Block}
    (h : chain.blocks = keep ++ [tip]) : chain.tipHash = tip.hash := by
  simp [tipHash, h]

@[simp] theorem pushTip_blocks (chain : Chain) (block : Block) (height : ℕ) (work : ChainWork) :
    (chain.pushTip block height work).blocks = chain.blocks ++ [block] := rfl

@[simp] theorem pushTip_orphans (chain : Chain) (block : Block) (height : ℕ) (work : ChainWork) :
    (chain.pushTip block height work).orphans = chain.orphans := rfl

@[simp] theorem pushTip_totalWork (chain : Chain) (block : Block) (height : ℕ)
    (work : ChainWork) : (chain.pushTip block height work).totalWork = chain.totalWork := rfl

@[simp] theorem pushTip_networkTime (chain : Chain) (block : Block) (height : ℕ)
    (work : ChainWork) : (chain.pushTip block height work).networkTime = chain.networkTime := rfl

@[simp] theorem pushTip_utxo (chain : Chain) (block : Block) (height : ℕ) (work : ChainWork) :
    (chain.pushTip block height work).utxo =
      chain.utxo.applyTransactions block.transactions := rfl

@[simp] theorem pushTip_eventJournal (chain : Chain) (block : Block) (height : ℕ)
    (work : ChainWork) : (chain.pushTip block height work).eventJournal =
      chain.eventJournal.push
        (.blockConnected height block.hash block.transactions.length) := rfl

@[simp] theorem pushTip_disconnectedJournal (chain : Chain) (block : Block) (height : ℕ)
    (work : ChainWork) :
    (chain.pushTip block height work).disconnectedJournal = chain.disconnectedJournal := rfl

theorem pushTip_known (chain : Chain) (block : Block) (height : ℕ) (work : ChainWork)
    (hash : Hash256) :
    (chain.pushTip block height work).known.lookup hash =
      if hash = block.hash then
        some ⟨block, height, work, chain.utxo.transactionUndos block.transactions⟩
      else chain.known.lookup hash :=
  HashMap.lookup_insert_ite _ _ _ _

@[simp] theorem popTip_blocks (chain : Chain) (block : Block) :
    (chain.popTip block).blocks = chain.blocks.dropLast := rfl

@[simp] theorem popTip_known (chain : Chain) (block : Block) :
    (chain.popTip block).known = chain.known := rfl

@[simp] theorem popTip_orphans (chain : Chain) (block : Block) :
    (chain.popTip block).orphans = chain.orphans := rfl

@[simp] theorem popTip_networkTime (chain : Chain) (block : Block) :
    (chain.popTip block).networkTime = chain.networkTime := rfl

@[simp] theorem rewind_nil (chain : Chain) : rewind [] chain = chain := rfl

@[simp] theorem rewind_cons (block : Block) (rest : List Block) (chain : Chain) :
    rewind (block :: rest) chain = (rewind rest chain).popTip block := rfl

theorem rewind_append (blocks rest : List Block) (chain : Chain) :
    rewind (blocks ++ rest) chain = rewind blocks (rewind rest chain) := List.foldr_append

@[simp] theorem rewind_known (blocks : List Block) (chain : Chain) :
    (rewind blocks chain).known = chain.known := by
  induction blocks with
  | nil => rfl
  | cons block rest ih => rw [rewind_cons, popTip_known, ih]

@[simp] theorem rewind_orphans (blocks : List Block) (chain : Chain) :
    (rewind blocks chain).orphans = chain.orphans := by
  induction blocks with
  | nil => rfl
  | cons block rest ih => rw [rewind_cons, popTip_orphans, ih]

@[simp] theorem rewind_networkTime (blocks : List Block) (chain : Chain) :
    (rewind blocks chain).networkTime = chain.networkTime := by
  induction blocks with
  | nil => rfl
  | cons block rest ih => rw [rewind_cons, popTip_networkTime, ih]

theorem rewind_blocks {keep post : List Block} {chain : Chain}
    (h : chain.blocks = keep ++ post) : (rewind post chain).blocks = keep := by
  induction post generalizing keep with
  | nil => simpa using h
  | cons block rest ih =>
      have hrest : (rewind rest chain).blocks = keep ++ [block] := ih (by simpa using h)
      rw [rewind_cons, popTip_blocks, hrest]
      simp

/-! ## Consequences of coherence -/

namespace Indexed

variable {genesis : Block} {chain : Chain}

theorem blocks_ne_nil (h : Indexed genesis chain) : chain.blocks ≠ [] := by
  intro hnil
  have := h.head
  simp [hnil] at this

theorem active_eq_of_hash (h : Indexed genesis chain) {i j : ℕ} {b b' : Block}
    (hi : chain.blocks[i]? = some b) (hj : chain.blocks[j]? = some b')
    (heq : b.hash = b'.hash) : i = j := by
  obtain ⟨entry, hentry, -, hheight⟩ := h.active_known i b hi
  obtain ⟨entry', hentry', -, hheight'⟩ := h.active_known j b' hj
  rw [heq, hentry'] at hentry
  rw [← hheight, ← hheight', Option.some.inj hentry]

/-- The active hashes are pairwise distinct. -/
theorem hashes_nodup (h : Indexed genesis chain) : (chain.blocks.map Block.hash).Nodup := by
  rw [List.nodup_iff_injective_get]
  intro i j hij
  have hilt : i.1 < chain.blocks.length := by simpa using i.2
  have hjlt : j.1 < chain.blocks.length := by simpa using j.2
  have hi : chain.blocks[i.1]? = some chain.blocks[i.1] := List.getElem?_eq_getElem hilt
  have hj : chain.blocks[j.1]? = some chain.blocks[j.1] := List.getElem?_eq_getElem hjlt
  exact Fin.ext (h.active_eq_of_hash hi hj (by simpa using hij))

theorem mem_active_known (h : Indexed genesis chain) {b : Block} (hb : b ∈ chain.blocks) :
    ∃ entry, chain.known.lookup b.hash = some entry ∧ entry.block = b := by
  obtain ⟨i, hi⟩ := List.mem_iff_getElem?.mp hb
  obtain ⟨entry, hentry, hblock, -⟩ := h.active_known i b hi
  exact ⟨entry, hentry, hblock⟩

theorem active_lookup (h : Indexed genesis chain) {hash : Hash256}
    (hactive : hash ∈ chain.activeHashes) :
    ∃ entry, chain.known.lookup hash = some entry ∧ entry.block ∈ chain.blocks := by
  obtain ⟨b, hb, rfl⟩ := (h.active_iff hash).mp hactive
  obtain ⟨entry, hentry, hblock⟩ := h.mem_active_known hb
  exact ⟨entry, hentry, hblock ▸ hb⟩

theorem genesis_mem (h : Indexed genesis chain) : genesis ∈ chain.blocks :=
  List.mem_of_mem_head? h.head

theorem genesis_known (h : Indexed genesis chain) :
    ∃ entry, chain.known.lookup genesis.hash = some entry ∧ entry.block = genesis ∧
      entry.height = 0 := by
  have hget : chain.blocks[0]? = some genesis := by
    rw [← List.head?_eq_getElem?]
    exact h.head
  exact h.active_known 0 genesis hget

/-- The tip, its index entry and the list below it. -/
theorem exists_tip (h : Indexed genesis chain) :
    ∃ keep tip entry, chain.blocks = keep ++ [tip] ∧ chain.tipHash = tip.hash ∧
      chain.known.lookup tip.hash = some entry ∧ entry.block = tip ∧
        entry.height = keep.length := by
  obtain ⟨keep, tip, hblocks⟩ := (List.eq_nil_or_concat' chain.blocks).resolve_left h.blocks_ne_nil
  obtain ⟨entry, hentry, hblock, hheight⟩ := h.active_known keep.length tip (by simp [hblocks])
  exact ⟨keep, tip, entry, hblocks, tipHash_of_append keep hblocks, hentry, hblock, hheight⟩

/-! ## The two moves keep coherence -/

/-- A block may become the tip when it extends it and its hash is new to the
index or indexed for exactly this position. -/
structure Pushable (chain : Chain) (block : Block) : Prop where
  prev : block.header.prevBlockhash = chain.tipHash
  indexed : ∀ entry, chain.known.lookup block.hash = some entry →
    entry.block = block ∧ entry.height = chain.blocks.length

theorem notMem_active_of_pushable (h : Indexed genesis chain) {block : Block}
    (hpush : Pushable chain block) : block.hash ∉ chain.activeHashes := by
  intro hactive
  obtain ⟨b, hb, heq⟩ := (h.active_iff _).mp hactive
  obtain ⟨i, hi⟩ := List.mem_iff_getElem?.mp hb
  obtain ⟨entry, hentry, -, hheight⟩ := h.active_known i b hi
  rw [heq] at hentry
  have hlt : i < chain.blocks.length := (List.getElem?_eq_some_iff.mp hi).1
  have := (hpush.indexed entry hentry).2
  omega

theorem ne_of_mem_of_pushable (h : Indexed genesis chain) {block b : Block}
    (hpush : Pushable chain block) (hb : b ∈ chain.blocks) : b.hash ≠ block.hash := by
  intro heq
  exact h.notMem_active_of_pushable hpush ((h.active_iff _).mpr ⟨b, hb, heq⟩)

theorem pushTip (h : Indexed genesis chain) {block : Block} (hpush : Pushable chain block)
    (work : ChainWork) :
    Indexed genesis (chain.pushTip block chain.blocks.length work) := by
  obtain ⟨keep, tip, tipEntry, hblocks, htipHash, htipEntry, -, htipHeight⟩ := h.exists_tip
  have hne : ∀ b ∈ chain.blocks, b.hash ≠ block.hash :=
    fun b hb ↦ h.ne_of_mem_of_pushable hpush hb
  have htip : tip.hash ≠ block.hash := hne tip (by simp [hblocks])
  refine ⟨?_, ?_, ?_, ?_, ?_, ?_⟩
  · rw [pushTip_blocks, List.head?_append, h.head]
    rfl
  · rw [pushTip_blocks, List.isChain_append]
    refine ⟨h.linked, List.isChain_singleton _, ?_⟩
    intro x hx y hy
    have hy' : block = y := by simpa using hy
    have hx' : tip = x := by simpa [hblocks] using hx
    rw [← hx', ← hy', hpush.prev, htipHash]
  · intro hash
    change hash ∈ insert block.hash chain.activeHashes ↔ _
    rw [Finset.mem_insert, h.active_iff, pushTip_blocks]
    simp only [List.mem_append, List.mem_singleton]
    constructor
    · rintro (rfl | ⟨b, hb, rfl⟩)
      · exact ⟨block, Or.inr rfl, rfl⟩
      · exact ⟨b, Or.inl hb, rfl⟩
    · rintro ⟨b, hb | rfl, rfl⟩
      · exact Or.inr ⟨b, hb, rfl⟩
      · exact Or.inl rfl
  · intro i b hi
    rw [pushTip_blocks] at hi
    rcases lt_or_ge i chain.blocks.length with hlt | hge
    · rw [List.getElem?_append_left hlt] at hi
      rw [pushTip_known, if_neg (hne b (List.mem_of_getElem? hi))]
      exact h.active_known i b hi
    · rw [List.getElem?_append_right hge, List.getElem?_singleton] at hi
      split at hi
      · obtain rfl := Option.some.inj hi
        refine ⟨_, by rw [pushTip_known, if_pos rfl], rfl, ?_⟩
        simp only
        omega
      · simp at hi
  · intro hash entry hentry
    rw [pushTip_known] at hentry
    split at hentry
    · obtain rfl := Option.some.inj hentry
      exact (‹hash = block.hash›).symm
    · exact h.known_hash hash entry hentry
  · intro hash entry hentry
    rw [pushTip_known] at hentry
    split at hentry
    · obtain rfl := Option.some.inj hentry
      refine Or.inr ⟨tipEntry, ?_, ?_⟩
      · rw [pushTip_known, hpush.prev, htipHash, if_neg htip, htipEntry]
      · simp only [hblocks, List.length_append, List.length_singleton, htipHeight]
    · rcases h.known_parent hash entry hentry with hgen | ⟨parent, hparent, hheight⟩
      · exact Or.inl hgen
      · apply Or.inr
        rw [pushTip_known]
        split
        · rename_i heq
          rw [heq] at hparent
          refine ⟨_, rfl, ?_⟩
          simp only
          rw [hheight, (hpush.indexed parent hparent).2]
        · exact ⟨parent, hparent, hheight⟩

theorem popTip (h : Indexed genesis chain) {keep : List Block} {tip : Block}
    (hblocks : chain.blocks = keep ++ [tip]) (hkeep : keep ≠ []) :
    Indexed genesis (chain.popTip tip) := by
  have hdrop : (chain.popTip tip).blocks = keep := by simp [hblocks]
  have hnodup := h.hashes_nodup
  rw [hblocks, List.map_append, List.nodup_append] at hnodup
  refine ⟨?_, ?_, ?_, ?_, h.known_hash, h.known_parent⟩
  · rw [hdrop]
    have := h.head
    rw [hblocks, List.head?_append_of_ne_nil _ hkeep] at this
    exact this
  · rw [hdrop]
    have := h.linked
    rw [hblocks, List.isChain_append] at this
    exact this.1
  · intro hash
    change hash ∈ chain.activeHashes.erase tip.hash ↔ _
    rw [Finset.mem_erase, h.active_iff, hdrop, hblocks]
    simp only [List.mem_append, List.mem_singleton]
    constructor
    · rintro ⟨hne, b, hb | rfl, rfl⟩
      · exact ⟨b, hb, rfl⟩
      · exact (hne rfl).elim
    · rintro ⟨b, hb, rfl⟩
      refine ⟨?_, b, Or.inl hb, rfl⟩
      exact hnodup.2.2 _ (List.mem_map_of_mem hb) _ (by simp)
  · intro i b hi
    rw [hdrop] at hi
    exact h.active_known i b (by
      rw [hblocks, List.getElem?_append_left (List.getElem?_eq_some_iff.mp hi).1]
      exact hi)

theorem rewind (h : Indexed genesis chain) {keep post : List Block}
    (hblocks : chain.blocks = keep ++ post) (hkeep : keep ≠ []) :
    Indexed genesis (rewind post chain) := by
  induction post generalizing keep with
  | nil => exact h
  | cons block rest ih =>
      have hrest : chain.blocks = (keep ++ [block]) ++ rest := by simpa using hblocks
      exact (ih hrest (by simp)).popTip (rewind_blocks hrest) hkeep

/-- Every height up to that of a known block is the height of some known block. -/
theorem exists_known_of_height_le (h : Indexed genesis chain) :
    ∀ (n : ℕ) (hash : Hash256) (entry : BlockMeta), chain.known.lookup hash = some entry →
      entry.height = n → ∀ i ≤ n, ∃ hash' entry', chain.known.lookup hash' = some entry' ∧
        entry'.height = i := by
  intro n
  induction n with
  | zero =>
      intro hash entry hentry hheight i hi
      exact ⟨hash, entry, hentry, by omega⟩
  | succ n ih =>
      intro hash entry hentry hheight i hi
      rcases Nat.lt_or_ge n i with hlt | hle
      · exact ⟨hash, entry, hentry, by omega⟩
      · rcases h.known_parent hash entry hentry with hgen | ⟨parent, hparent, hstep⟩
        · obtain ⟨genEntry, hgenEntry, -, hzero⟩ := h.genesis_known
          rw [hgen, hgenEntry] at hentry
          obtain rfl := Option.some.inj hentry
          omega
        · exact ih _ parent hparent (by omega) i hle

/-- Heights are bounded by the size of the index, so the fork walk has fuel enough. -/
theorem height_lt_card (h : Indexed genesis chain) {hash : Hash256} {entry : BlockMeta}
    (hentry : chain.known.lookup hash = some entry) :
    entry.height < chain.known.keys.card := by
  let heightOf : Hash256 → ℕ := fun hash ↦ ((chain.known.lookup hash).map BlockMeta.height).getD 0
  have hsub : Finset.range (entry.height + 1) ⊆ chain.known.keys.image heightOf := by
    intro i hi
    obtain ⟨hash', entry', hlookup, hheight⟩ := h.exists_known_of_height_le _ hash entry hentry rfl
      i (Nat.lt_succ_iff.mp (Finset.mem_range.mp hi))
    refine Finset.mem_image.mpr ⟨hash', ?_, ?_⟩
    · exact Finmap.mem_keys.mpr (Finmap.mem_of_lookup_eq_some hlookup)
    · simp [heightOf, hlookup, hheight]
  have hcard := (Finset.card_le_card hsub).trans Finset.card_image_le
  rw [Finset.card_range] at hcard
  omega

end Indexed

end Chain

end Bitrst
