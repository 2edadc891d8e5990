import Bitrst.BlockCodec
import Bitrst.ChainCoherence

/-!
# What a signature hash commits to

The bytes that `sighash_all` hashes are those of a transaction, the one being
signed with the spent script at the signed index and empty scripts elsewhere,
and of the hash type.  Since encodings determine transactions, the digest
commits to all of it; and since no script of the transaction goes in, signing
an input changes no digest.
-/

namespace Bitrst

open Support

/-! ## Transactions apart from their signature scripts -/

/-- What is left of an input without its signature script. -/
def TxInput.unsigned (input : TxInput) : Hash256 × UInt32 × UInt32 :=
  (input.previousOutput, input.index, input.sequence)

/-- The transactions agree on version, lock time, outputs and every outpoint and sequence. -/
structure Transaction.SameButScripts (tx tx' : Transaction) : Prop where
  version : tx.version = tx'.version
  inputs : tx.inputs.map TxInput.unsigned = tx'.inputs.map TxInput.unsigned
  outputs : tx.outputs = tx'.outputs
  lockTime : tx.lockTime = tx'.lockTime

namespace Transaction.SameButScripts

variable {tx tx' tx'' : Transaction}

theorem refl (tx : Transaction) : SameButScripts tx tx := ⟨rfl, rfl, rfl, rfl⟩

theorem trans (h : SameButScripts tx tx') (h' : SameButScripts tx' tx'') :
    SameButScripts tx tx'' :=
  ⟨h.version.trans h'.version, h.inputs.trans h'.inputs, h.outputs.trans h'.outputs,
    h.lockTime.trans h'.lockTime⟩

theorem length_eq (h : SameButScripts tx tx') : tx.inputs.length = tx'.inputs.length := by
  have hlength := congrArg List.length h.inputs
  rwa [List.length_map, List.length_map] at hlength

end Transaction.SameButScripts

/-! ## The transaction being signed -/

/-- An input with the script that is signed for it. -/
def TxInput.signing (inputIndex i : ℕ) (input : TxInput) (prevScript : Bytes) : TxInput :=
  { input with scriptSig := if i = inputIndex then prevScript else [] }

def signingInputs (inputIndex : ℕ) : ℕ → List TxInput → List Bytes → List TxInput
  | i, input :: inputs, prevScript :: prevScripts =>
      input.signing inputIndex i prevScript :: signingInputs inputIndex (i + 1) inputs prevScripts
  | _, _, _ => []

/-- The transaction whose encoding is hashed. -/
def signingTransaction (tx : Transaction) (inputIndex : ℕ) (prevScripts : List Bytes) :
    Transaction :=
  { tx with inputs := signingInputs inputIndex 0 tx.inputs prevScripts }

/-- The bytes that `sighash_all` hashes. -/
def sighashPreimage (tx : Transaction) (inputIndex : ℕ) (prevScripts : List Bytes) : Bytes :=
  (signingTransaction tx inputIndex prevScripts).serialize ++ u32ToLeBytes sighashAllType

theorem sighashInputs_eq (inputIndex i : ℕ) (inputs : List TxInput) (prevScripts : List Bytes) :
    sighashInputs inputIndex i inputs prevScripts =
      (signingInputs inputIndex i inputs prevScripts).flatMap TxInput.serialize := by
  induction inputs generalizing i prevScripts with
  | nil => rfl
  | cons input inputs ih =>
      cases prevScripts with
      | nil => rfl
      | cons prevScript prevScripts =>
          rw [sighashInputs, signingInputs, List.flatMap_cons, ih]
          rfl

theorem signingInputs_getElem? (inputIndex i k : ℕ) (inputs : List TxInput)
    (prevScripts : List Bytes) :
    (signingInputs inputIndex i inputs prevScripts)[k]? =
      inputs[k]?.bind fun input ↦
        prevScripts[k]?.map fun prevScript ↦ input.signing inputIndex (i + k) prevScript := by
  induction inputs generalizing i k prevScripts with
  | nil => simp [signingInputs]
  | cons input inputs ih =>
      cases prevScripts with
      | nil => simp [signingInputs]
      | cons prevScript prevScripts =>
          cases k with
          | zero => rfl
          | succ k =>
              rw [signingInputs, List.getElem?_cons_succ, ih]
              simp only [List.getElem?_cons_succ, Nat.add_right_comm i 1 k, Nat.add_assoc]

theorem signingInputs_length {inputIndex i : ℕ} {inputs : List TxInput} {prevScripts : List Bytes}
    (h : prevScripts.length = inputs.length) :
    (signingInputs inputIndex i inputs prevScripts).length = inputs.length := by
  induction inputs generalizing i prevScripts with
  | nil => rfl
  | cons input inputs ih =>
      cases prevScripts with
      | nil => cases h
      | cons prevScript prevScripts =>
          rw [signingInputs, List.length_cons, ih (Nat.succ.inj h), List.length_cons]

theorem TxInput.signing_unsigned (inputIndex i : ℕ) (input : TxInput) (prevScript : Bytes) :
    (input.signing inputIndex i prevScript).unsigned = input.unsigned := rfl

theorem TxInput.signing_eq {inputIndex i : ℕ} {input input' : TxInput}
    {prevScript prevScript' : Bytes} (h : input.unsigned = input'.unsigned)
    (hscript : i = inputIndex → prevScript = prevScript') :
    input.signing inputIndex i prevScript = input'.signing inputIndex i prevScript' := by
  simp only [unsigned, Prod.mk.injEq] at h
  obtain ⟨hhash, hindex, hsequence⟩ := h
  unfold signing
  rw [hhash, hindex, hsequence]
  by_cases hi : i = inputIndex
  · rw [if_pos hi, if_pos hi, hscript hi]
  · rw [if_neg hi, if_neg hi]

/-- What `sighash_all` accepts, with a script to sign.  A length is a `usize`. -/
structure Signable (tx : Transaction) (inputIndex : ℕ) (prevScripts : List Bytes) : Prop where
  index_lt : inputIndex < tx.inputs.length
  count_eq : prevScripts.length = tx.inputs.length
  script_ne : prevScripts[inputIndex]? ≠ some []
  inputs_lt : tx.inputs.length < 2 ^ 64
  outputs_lt : tx.outputs.length < 2 ^ 64
  outputs : ∀ output ∈ tx.outputs, output.scriptPubkey.length < 2 ^ 64
  scripts : ∀ script ∈ prevScripts, script.length < 2 ^ 64

namespace Signable

variable {tx tx' : Transaction} {inputIndex inputIndex' : ℕ} {prevScripts prevScripts' : List Bytes}

/-- The input at an index of the transaction being signed. -/
theorem getElem_signingInputs (h : Signable tx inputIndex prevScripts) {k : ℕ}
    (hk : k < tx.inputs.length) : ∃ prevScript, prevScripts[k]? = some prevScript ∧
      (signingInputs inputIndex 0 tx.inputs prevScripts)[k]? =
        some (tx.inputs[k].signing inputIndex k prevScript) := by
  have hscript :=
    List.getElem?_eq_getElem (l := prevScripts) (i := k) (by rw [h.count_eq]; exact hk)
  refine ⟨_, hscript, ?_⟩
  rw [signingInputs_getElem?, hscript, List.getElem?_eq_getElem hk, Nat.zero_add]
  rfl

theorem signingTransaction_sized (h : Signable tx inputIndex prevScripts) :
    (signingTransaction tx inputIndex prevScripts).Sized where
  inputs_lt := (signingInputs_length h.count_eq).trans_lt h.inputs_lt
  outputs_lt := h.outputs_lt
  inputs := by
    intro input hinput
    obtain ⟨k, hk⟩ := List.getElem?_of_mem hinput
    have hlt := (List.getElem?_eq_some_iff.mp hk).1
    change k < (signingInputs inputIndex 0 tx.inputs prevScripts).length at hlt
    rw [signingInputs_length h.count_eq] at hlt
    obtain ⟨prevScript, hscript, hsigning⟩ := h.getElem_signingInputs hlt
    obtain rfl := Option.some.inj (hsigning.symm.trans hk)
    rw [TxInput.signing]
    split
    · exact h.scripts _ (List.mem_of_getElem? hscript)
    · exact Nat.two_pow_pos 64
  outputs := h.outputs

/-- The index is the one of the only input with a script. -/
theorem of_signingInputs_eq (h : Signable tx inputIndex prevScripts)
    (h' : Signable tx' inputIndex' prevScripts')
    (heq : signingInputs inputIndex 0 tx.inputs prevScripts =
      signingInputs inputIndex' 0 tx'.inputs prevScripts') :
    inputIndex = inputIndex' ∧ prevScripts[inputIndex]? = prevScripts'[inputIndex']? ∧
      tx.inputs.map TxInput.unsigned = tx'.inputs.map TxInput.unsigned := by
  have hlength : tx.inputs.length = tx'.inputs.length := by
    rw [← signingInputs_length h.count_eq, heq, signingInputs_length h'.count_eq]
  have hinput : ∀ k (hk : k < tx.inputs.length) (hk' : k < tx'.inputs.length),
      ∃ prevScript prevScript', prevScripts[k]? = some prevScript ∧
        prevScripts'[k]? = some prevScript' ∧
          tx.inputs[k].signing inputIndex k prevScript =
            tx'.inputs[k].signing inputIndex' k prevScript' := by
    intro k hk hk'
    obtain ⟨prevScript, hscript, hsigning⟩ := h.getElem_signingInputs hk
    obtain ⟨prevScript', hscript', hsigning'⟩ := h'.getElem_signingInputs hk'
    rw [heq, hsigning'] at hsigning
    exact ⟨prevScript, prevScript', hscript, hscript', (Option.some.inj hsigning).symm⟩
  have hunsigned : tx.inputs.map TxInput.unsigned = tx'.inputs.map TxInput.unsigned := by
    apply List.ext_getElem (by simpa using hlength)
    intro k hk hk'
    rw [List.length_map] at hk hk'
    obtain ⟨prevScript, prevScript', -, -, hsame⟩ := hinput k hk hk'
    have hbare := congrArg TxInput.unsigned hsame
    rwa [TxInput.signing_unsigned, TxInput.signing_unsigned, ← List.getElem_map TxInput.unsigned,
      ← List.getElem_map TxInput.unsigned] at hbare
  obtain ⟨prevScript, prevScript', hscript, hscript', hsame⟩ :=
    hinput inputIndex h.index_lt (hlength ▸ h.index_lt)
  have hne : prevScript ≠ [] := fun hempty ↦ h.script_ne (hempty ▸ hscript)
  have hsigned := congrArg TxInput.scriptSig hsame
  simp only [TxInput.signing, if_pos] at hsigned
  split at hsigned
  · rename_i hindex
    refine ⟨hindex, ?_, hunsigned⟩
    rw [← hindex, hscript, hscript', hsigned]
  · exact (hne hsigned).elim

theorem signingTransaction_eq_iff (h : Signable tx inputIndex prevScripts)
    (h' : Signable tx' inputIndex' prevScripts') :
    signingTransaction tx inputIndex prevScripts =
        signingTransaction tx' inputIndex' prevScripts' ↔
      inputIndex = inputIndex' ∧ prevScripts[inputIndex]? = prevScripts'[inputIndex']? ∧
        tx.SameButScripts tx' := by
  constructor
  · intro heq
    obtain ⟨hindex, hscript, hunsigned⟩ :=
      of_signingInputs_eq h h' (congrArg Transaction.inputs heq)
    have hversion := congrArg Transaction.version heq
    have houtputs := congrArg Transaction.outputs heq
    have hlockTime := congrArg Transaction.lockTime heq
    exact ⟨hindex, hscript, hversion, hunsigned, houtputs, hlockTime⟩
  · rintro ⟨rfl, hscript, hsame⟩
    have hinputs : signingInputs inputIndex 0 tx.inputs prevScripts =
        signingInputs inputIndex 0 tx'.inputs prevScripts' := by
      apply List.ext_getElem
      · rw [signingInputs_length h.count_eq, signingInputs_length h'.count_eq, hsame.length_eq]
      intro k hk hk'
      rw [signingInputs_length h.count_eq] at hk
      rw [signingInputs_length h'.count_eq] at hk'
      obtain ⟨prevScript, hprev, hsigning⟩ := h.getElem_signingInputs hk
      obtain ⟨prevScript', hprev', hsigning'⟩ := h'.getElem_signingInputs hk'
      rw [(List.getElem?_eq_some_iff.mp hsigning).2, (List.getElem?_eq_some_iff.mp hsigning').2]
      apply TxInput.signing_eq
      · have hk₁ : k < (tx.inputs.map TxInput.unsigned).length := by rwa [List.length_map]
        have hunsigned := List.getElem_of_eq hsame.inputs hk₁
        rwa [List.getElem_map, List.getElem_map] at hunsigned
      · rintro rfl
        rw [hprev, hprev'] at hscript
        exact Option.some.inj hscript
    simp only [signingTransaction, hinputs, hsame.version, hsame.outputs, hsame.lockTime]

end Signable

section

variable [Crypto]

/-- The digest exists when the index and the count of scripts are right. -/
theorem sighashAll_eq {tx : Transaction} {inputIndex : ℕ} {prevScripts : List Bytes}
    (hindex : inputIndex < tx.inputs.length) (hcount : prevScripts.length = tx.inputs.length) :
    sighashAll tx inputIndex prevScripts =
      .ok (sha256d (sighashPreimage tx inputIndex prevScripts)) := by
  have hlength : (signingInputs inputIndex 0 tx.inputs prevScripts).length = tx.inputs.length :=
    signingInputs_length hcount
  rw [sighashAll, if_neg (Nat.not_le.mpr hindex), if_neg (not_not.mpr hcount), sighashInputs_eq,
    sighashPreimage, Transaction.serialize, signingTransaction, hlength]

/-- No digest depends on the signature scripts. -/
theorem sighashAll_congr {tx tx' : Transaction} (h : tx.SameButScripts tx') (inputIndex : ℕ)
    (prevScripts : List Bytes) :
    sighashAll tx inputIndex prevScripts = sighashAll tx' inputIndex prevScripts := by
  have hinputs : ∀ (i : ℕ) (inputs inputs' : List TxInput) (prevScripts : List Bytes),
      inputs.map TxInput.unsigned = inputs'.map TxInput.unsigned →
        sighashInputs inputIndex i inputs prevScripts =
          sighashInputs inputIndex i inputs' prevScripts := by
    intro i inputs
    induction inputs generalizing i with
    | nil =>
        intro inputs' prevScripts hsame
        rw [List.map_eq_nil_iff.mp hsame.symm]
    | cons input inputs ih =>
        intro inputs' prevScripts hsame
        cases inputs' with
        | nil => cases hsame
        | cons input' inputs' =>
            cases prevScripts with
            | nil => rfl
            | cons prevScript prevScripts =>
                simp only [List.map_cons, List.cons.injEq, TxInput.unsigned, Prod.mk.injEq] at hsame
                obtain ⟨⟨hhash, hindex, hsequence⟩, hrest⟩ := hsame
                rw [sighashInputs, sighashInputs, ih (i + 1) inputs' prevScripts hrest]
                simp only [sighashInput, hhash, hindex, hsequence]
  simp only [sighashAll, h.length_eq, h.version, h.outputs, h.lockTime,
    hinputs 0 _ _ prevScripts h.inputs]

/-- The digest commits to everything but the signature scripts.  `sha256d` has to be injective
on the bytes that are hashed only. -/
theorem sighashAll_eq_iff {tx tx' : Transaction} {inputIndex inputIndex' : ℕ}
    {prevScripts prevScripts' : List Bytes} (h : Signable tx inputIndex prevScripts)
    (h' : Signable tx' inputIndex' prevScripts')
    (hinjective : Set.InjOn sha256d
      {sighashPreimage tx inputIndex prevScripts, sighashPreimage tx' inputIndex' prevScripts'}) :
    sighashAll tx inputIndex prevScripts = sighashAll tx' inputIndex' prevScripts' ↔
      inputIndex = inputIndex' ∧ prevScripts[inputIndex]? = prevScripts'[inputIndex']? ∧
        tx.SameButScripts tx' := by
  rw [sighashAll_eq h.index_lt h.count_eq, sighashAll_eq h'.index_lt h'.count_eq,
    ← h.signingTransaction_eq_iff h']
  constructor
  · intro heq
    have hpreimage := hinjective (by simp) (by simp) (Except.ok.inj heq)
    have hunique := Transaction.unique _ _ _ _ h.signingTransaction_sized
      h'.signingTransaction_sized hpreimage
    exact hunique.1
  · intro heq
    rw [sighashPreimage, heq]
    rfl

end

end Bitrst

namespace Bitrst.Sample

/-- The script that `payingSpend` spends. -/
def payingScript : Bytes := [0x76, 0xa9, 20] ++ publicKeyHash.toList ++ [0x88, 0xac]

def delayedSpend : Transaction := { payingSpend with lockTime := 1 }

theorem payingSpend_signable : Signable payingSpend 0 [payingScript] := by
  constructor <;> decide +kernel

theorem delayedSpend_signable : Signable delayedSpend 0 [payingScript] := by
  constructor <;> decide +kernel

theorem delayedSpend_digest :
    sighashAll payingSpend 0 [payingScript] = sighashAll delayedSpend 0 [payingScript] ↔
      0 = 0 ∧ [payingScript][0]? = [payingScript][0]? ∧
        payingSpend.SameButScripts delayedSpend := by
  apply sighashAll_eq_iff payingSpend_signable delayedSpend_signable
  have hne : sha256d (sighashPreimage payingSpend 0 [payingScript]) ≠
      sha256d (sighashPreimage delayedSpend 0 [payingScript]) := by decide +kernel
  rintro a (rfl | rfl) b (rfl | rfl) heq
  · rfl
  · exact (hne heq).elim
  · exact (hne heq.symm).elim
  · rfl

end Bitrst.Sample
