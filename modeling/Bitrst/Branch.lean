import Bitrst.ChainCoherence

/-!
# The branch of a block

The blocks from genesis to a known block, read from the index by parent hash.
It is what the validation of a child would have to be judged on, whatever
branch is active.
-/

namespace Bitrst

open Support

variable [Crypto]

namespace Chain

variable {genesis : Block} {chain chain' : Chain}

/-- The blocks up to the one with hash `hash`, at most `n` below it, oldest first. -/
def branchLoop (chain : Chain) : ℕ → Hash256 → List Block
  | n, hash =>
      match chain.known.lookup hash with
      | none => []
      | some entry =>
          match n with
          | 0 => [entry.block]
          | n + 1 => branchLoop chain n entry.block.header.prevBlockhash ++ [entry.block]

/-- The blocks from genesis to the one with hash `hash`. -/
def branch (chain : Chain) (hash : Hash256) : List Block :=
  chain.branchLoop ((chain.findHeight hash).getD 0) hash

omit [Crypto] in
theorem branch_eq {hash : Hash256} {entry : BlockMeta}
    (hentry : chain.known.lookup hash = some entry) :
    chain.branch hash = chain.branchLoop entry.height hash := by
  rw [branch, findHeight, hentry]
  rfl

/-- A branch grows by one block over the branch of its parent. -/
theorem Indexed.branch_succ (h : Indexed genesis chain) {hash : Hash256} {entry : BlockMeta}
    (hentry : chain.known.lookup hash = some entry) (hne : hash ≠ genesis.hash) :
    chain.branch hash = chain.branch entry.block.header.prevBlockhash ++ [entry.block] := by
  rcases h.known_parent hash entry hentry with hgen | ⟨parent, hparent, hheight⟩
  · exact (hne hgen).elim
  · rw [branch_eq hentry, branch_eq hparent, hheight, branchLoop]
    simp only [hentry]

theorem Indexed.branch_genesis (h : Indexed genesis chain) :
    chain.branch genesis.hash = [genesis] := by
  obtain ⟨entry, hentry, hblock, hheight⟩ := h.genesis_known
  rw [branch_eq hentry, hheight, branchLoop]
  simp only [hentry, hblock]

/-- The branch of an active block is the active list up to it. -/
theorem Indexed.branch_active (h : Indexed genesis chain) {i : ℕ} {block : Block}
    (hblock : chain.blocks[i]? = some block) :
    chain.branch block.hash = chain.blocks.take (i + 1) := by
  induction i generalizing block with
  | zero =>
      have hhead := h.head
      rw [List.head?_eq_getElem?, hblock] at hhead
      obtain rfl := Option.some.inj hhead
      obtain ⟨rest, hrest⟩ := List.head?_eq_some_iff.mp h.head
      rw [h.branch_genesis, hrest]
      rfl
  | succ i ih =>
      obtain ⟨entry, hentry, hentryBlock, hheight⟩ := h.active_known _ _ hblock
      have hlt : i < chain.blocks.length :=
        Nat.lt_of_succ_lt (List.getElem?_eq_some_iff.mp hblock).1
      have hbelow : chain.blocks[i]? = some chain.blocks[i] := List.getElem?_eq_getElem hlt
      have hlinked : block.header.prevBlockhash = chain.blocks[i].hash := by
        have hchain := List.isChain_iff_getElem.mp h.linked i
          (List.getElem?_eq_some_iff.mp hblock).1
        rw [(List.getElem?_eq_some_iff.mp hblock).2] at hchain
        exact hchain
      have hne : block.hash ≠ genesis.hash := by
        intro heq
        have hgen : chain.blocks[0]? = some genesis := by
          rw [← List.head?_eq_getElem?]
          exact h.head
        exact absurd (h.active_eq_of_hash hblock hgen heq) (Nat.succ_ne_zero i)
      rw [h.branch_succ hentry hne, hentryBlock, hlinked, ih hbelow,
        List.take_add_one (i := i + 1), hblock]
      rfl

/-- The branch of the tip is the whole active list. -/
theorem Indexed.branch_tip (h : Indexed genesis chain) :
    chain.branch chain.tipHash = chain.blocks := by
  obtain ⟨keep, tip, -, hblocks, htipHash, -⟩ := h.exists_tip
  have htip : chain.blocks[keep.length]? = some tip := by simp [hblocks]
  rw [htipHash, h.branch_active htip, hblocks]
  exact List.take_of_length_le (by simp)

theorem Indexed.length_branch (h : Indexed genesis chain) {hash : Hash256} {entry : BlockMeta}
    (hentry : chain.known.lookup hash = some entry) :
    (chain.branch hash).length = entry.height + 1 := by
  induction hn : entry.height generalizing hash entry with
  | zero =>
      rw [branch_eq hentry, hn, branchLoop]
      simp only [hentry, List.length_singleton]
  | succ n ih =>
      have hne : hash ≠ genesis.hash := by
        rintro rfl
        obtain ⟨found, hfound, -, hzero⟩ := h.genesis_known
        rw [hentry] at hfound
        rw [Option.some.inj hfound, hzero] at hn
        cases hn
      rcases h.known_parent hash entry hentry with hgen | ⟨parent, hparent, hheight⟩
      · exact (hne hgen).elim
      · rw [h.branch_succ hentry hne, List.length_append, List.length_singleton,
          ih hparent (by omega)]

/-- The last block of a branch is the one it was collected for. -/
theorem Indexed.getLast?_branch (h : Indexed genesis chain) {hash : Hash256} {entry : BlockMeta}
    (hentry : chain.known.lookup hash = some entry) :
    (chain.branch hash).getLast? = some entry.block := by
  by_cases hgen : hash = genesis.hash
  · obtain ⟨found, hfound, hblock, -⟩ := h.genesis_known
    rw [hgen, hfound] at hentry
    obtain rfl := Option.some.inj hentry
    rw [hgen, h.branch_genesis, hblock]
    rfl
  · rw [h.branch_succ hentry hgen]
    simp

/-- Every branch starts at genesis. -/
theorem Indexed.head?_branch (h : Indexed genesis chain) {hash : Hash256} {entry : BlockMeta}
    (hentry : chain.known.lookup hash = some entry) : (chain.branch hash).head? = some genesis := by
  induction hn : entry.height generalizing hash entry with
  | zero =>
      have hlength := h.length_branch hentry
      rw [hn] at hlength
      by_cases hgen : hash = genesis.hash
      · rw [hgen, h.branch_genesis]
        rfl
      · rcases h.known_parent hash entry hentry with heq | ⟨parent, -, hheight⟩
        · exact (hgen heq).elim
        · omega
  | succ n ih =>
      by_cases hgen : hash = genesis.hash
      · rw [hgen, h.branch_genesis]
        rfl
      · rcases h.known_parent hash entry hentry with heq | ⟨parent, hparent, hheight⟩
        · exact (hgen heq).elim
        · rw [h.branch_succ hentry hgen, List.head?_append, ih hparent (by omega)]
          rfl

end Chain

end Bitrst
