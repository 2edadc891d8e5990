import Bitrst.Chain

/-!
# What the header checks of a block establish

`validate_block_header_for_parent` makes its checks one after the other.  A header passes
when all of them hold, and every error names the check that failed or is the error of the
bits demanded.
-/

namespace Bitrst

variable [Crypto] [Features]

namespace Chain

variable {chain : Chain} {block : Block} {parent : Option Block} {parentHash : Option Hash256}
  {height : ℕ}

/-- The checks that a header has passed. -/
structure HeaderChecked (chain : Chain) (block : Block) (parent : Option Block)
    (parentHash : Option Hash256) (height : ℕ) : Prop where
  pow : meetsTarget block = true
  root : block.headerMerkleRootMatches = true
  coinbaseCount : coinbaseCount block = 1
  firstIsCoinbase : firstIsCoinbase block = true
  time : ∀ below hash, parent = some below → parentHash = some hash →
    validBlockTime block.header.time (chain.medianPastTimeBefore hash) chain.networkTime = true
  bits : chain.expectedBits height block.header.bits = .ok block.header.bits

/-- The ways in which a header fails. -/
inductive HeaderFault (chain : Chain) (block : Block) (height : ℕ) : Stop → Prop
  | pow : HeaderFault chain block height (.error .invalidProofOfWork)
  | root : HeaderFault chain block height (.error .merkleRootMismatch)
  | coinbase :
      HeaderFault chain block height (.error (.invalidCoinbaseCount (coinbaseCount block)))
  | time (medianPast : UInt32) : HeaderFault chain block height
      (.error (.invalidTimestamp block.header.time medianPast chain.networkTime))
  | bits (expected : UInt32) : HeaderFault chain block height
      (.error (.unexpectedBits height expected block.header.bits))
  | demanded {e : Stop} (h : chain.expectedBits height block.header.bits = .error e) :
      HeaderFault chain block height e

theorem HeaderChecked.of_ok
    (h : chain.validateBlockHeaderForParent block parent parentHash height = .ok ()) :
    HeaderChecked chain block parent parentHash height := by
  unfold validateBlockHeaderForParent at h
  simp only at h
  split at h
  · cases h
  rename_i hpow
  split at h
  · cases h
  rename_i hroot
  split at h
  · cases h
  rename_i hcoinbase
  split at h
  · cases h
  rename_i htime
  split at h
  · cases h
  rename_i expected hexpected
  split at h
  · cases h
  rename_i hbits
  simp only [Bool.not_eq_true', Bool.not_eq_false] at hpow hroot
  simp only [ne_eq, decide_not, Bool.or_eq_true, Bool.not_eq_true', decide_eq_false_iff_not,
    not_or, not_not, Bool.not_eq_false] at hcoinbase
  refine ⟨hpow, hroot, hcoinbase.1, hcoinbase.2, ?_, hexpected.trans ?_⟩
  · rintro below hash rfl rfl
    simp only at htime
    split at htime
    · cases htime
    rename_i hwindow
    simpa using hwindow
  · rw [not_not.mp hbits]

theorem HeaderChecked.valid (h : HeaderChecked chain block parent parentHash height) :
    chain.validateBlockHeaderForParent block parent parentHash height = .ok () := by
  obtain ⟨hpow, hroot, hcount, hfirst, htime, hbits⟩ := h
  unfold validateBlockHeaderForParent
  simp only [hpow, hroot, hcount, hfirst, hbits, Bool.not_true, Bool.false_eq_true, if_false,
    ne_eq, not_true_eq_false, decide_false, Bool.or_self]
  cases parent with
  | none => rfl
  | some below =>
      cases parentHash with
      | none => rfl
      | some hash =>
          simp only [htime below hash rfl rfl, Bool.not_true, Bool.false_eq_true, if_false]

theorem HeaderFault.of_error {e : Stop}
    (h : chain.validateBlockHeaderForParent block parent parentHash height = .error e) :
    HeaderFault chain block height e := by
  unfold validateBlockHeaderForParent at h
  simp only at h
  split at h
  · obtain rfl := Except.error.inj h
    exact .pow
  split at h
  · obtain rfl := Except.error.inj h
    exact .root
  split at h
  · obtain rfl := Except.error.inj h
    exact .coinbase
  split at h
  · rename_i stop htime
    obtain rfl := Except.error.inj h
    split at htime
    · split at htime
      · obtain rfl := Except.error.inj htime
        exact .time _
      · cases htime
    · cases htime
  split at h
  · rename_i stop hdemanded
    obtain rfl := Except.error.inj h
    exact .demanded hdemanded
  split at h
  · obtain rfl := Except.error.inj h
    exact .bits _
  · cases h

/-- A block passes when its header and its transactions do. -/
theorem validateBlockForParent_ok_iff :
    chain.validateBlockForParent block parent parentHash height = .ok () ↔
      HeaderChecked chain block parent parentHash height ∧
        validateBlockTransactionsForUtxo block chain.utxo = .ok () := by
  rw [validateBlockForParent]
  constructor
  · intro h
    split at h
    · cases h
    rename_i hheader
    split at h
    · cases h
    exact ⟨.of_ok hheader, by assumption⟩
  · rintro ⟨hheader, htransactions⟩
    rw [hheader.valid, htransactions]

/-- The error of a block is one of its header or one of its transactions. -/
theorem validateBlockForParent_error_cases {e : Stop}
    (h : chain.validateBlockForParent block parent parentHash height = .error e) :
    HeaderFault chain block height e ∨
      ∃ found, validateBlockTransactionsForUtxo block chain.utxo = .error found ∧
        e = .error found := by
  rw [validateBlockForParent] at h
  split at h
  · rename_i stop hheader
    obtain rfl := Except.error.inj h
    exact Or.inl (.of_error hheader)
  split at h
  · rename_i found htransactions
    exact Or.inr ⟨found, htransactions, (Except.error.inj h).symm⟩
  · cases h

end Chain

end Bitrst
