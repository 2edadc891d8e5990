import Bitrst.MempoolService
import Bitrst.SignatureType
import Bitrst.WalletReplay

/-!
# Spending what the wallet holds

A transaction that spends outputs which a wallet holds, in step with its chain, and
whose inputs were signed with the keys that they pay.  A pool with room for it has
nothing left to refuse it for but its amounts.
-/

namespace Bitrst

open Support

variable [Crypto] [Signing]

/-! ## What signing adds -/

section

variable {tx signed : Transaction} {key : PrivateKey} {i : ℕ} {scripts : List Bytes}

/-- The largest signature script of a call: a signature with its hash type, and a key. -/
def maxSignatureScript : ℕ := 108

omit [Crypto] [Signing] in
theorem length_pushData_le {data : Bytes} (h : data.length ≤ 75) :
    (pushData data).length ≤ data.length + 1 := by
  rw [pushData, if_pos h]
  split
  · exact Nat.le_add_left 1 _
  · exact Nat.le_refl _

omit [Crypto] in
theorem length_p2pkhScriptSig_le (digest : Hash256) (key : PrivateKey) :
    (p2pkhScriptSig (signDerWithHashtype key.inner digest sighashAllType.toUInt8)
      key.publicKey.toList).length ≤ maxSignatureScript := by
  have hder := (Signing.signEcdsa digest key.inner).property
  have hsignature : (signDerWithHashtype key.inner digest sighashAllType.toUInt8).length ≤ 73 := by
    rw [signDerWithHashtype, List.length_append, List.length_singleton]
    omega
  have hkey : key.publicKey.toList.length = 33 := List.Vector.toList_length _
  have hfirst := length_pushData_le (hsignature.trans (by decide : 73 ≤ 75))
  have hsecond := length_pushData_le (hkey.le.trans (by decide : 33 ≤ 75))
  rw [p2pkhScriptSig, List.length_append, maxSignatureScript]
  omega

/-- The script of the input at an index is no longer than what a call makes. -/
def ShortScript (tx : Transaction) (i : ℕ) : Prop :=
  ∀ input, tx.inputs[i]? = some input → input.scriptSig.length ≤ maxSignatureScript

theorem signP2pkhInput_short (h : signP2pkhInput tx i scripts key = .ok signed) :
    ShortScript signed i ∧ ∀ j, ShortScript tx j → ShortScript signed j := by
  unfold signP2pkhInput at h
  split at h
  · cases h
  · split at h
    · cases h
    · rename_i digest hdigest
      cases h
      have hshort : ShortScript { tx with
          inputs := tx.inputs.modify i fun input ↦ { input with
            scriptSig := p2pkhScriptSig (signDerWithHashtype key.inner digest
              sighashAllType.toUInt8) key.publicKey.toList } } i := by
        intro input hinput
        rw [List.getElem?_modify_eq] at hinput
        obtain ⟨old, -, rfl⟩ := Option.map_eq_some_iff.mp hinput
        exact length_p2pkhScriptSig_le digest key
      refine ⟨hshort, fun j hj ↦ ?_⟩
      by_cases hij : i = j
      · exact hij ▸ hshort
      · intro input hinput
        rw [List.getElem?_modify_ne _ _ hij] at hinput
        exact hj input hinput

/-- Every input that was signed has a short script. -/
theorem signInputs_short {calls : List (PrivateKey × ℕ)}
    (h : signInputs scripts calls tx = .ok signed) :
    (∀ call ∈ calls, ShortScript signed call.2) ∧
      ∀ j, ShortScript tx j → ShortScript signed j := by
  induction calls generalizing tx with
  | nil =>
      cases h
      exact ⟨fun _ hcall ↦ (List.not_mem_nil hcall).elim, fun _ hj ↦ hj⟩
  | cons call rest ih =>
      rw [signInputs] at h
      split at h
      · cases h
      · rename_i next hnext
        obtain ⟨hshort, hkept⟩ := signP2pkhInput_short hnext
        obtain ⟨hrest, hkept'⟩ := ih h
        refine ⟨fun other hother ↦ ?_, fun j hj ↦ hkept' j (hkept j hj)⟩
        rcases List.mem_cons.mp hother with rfl | hother
        · exact hkept' _ hshort
        · exact hrest other hother

/-- After a call for each key every input verifies, and its script is short. -/
theorem signInputs_all {keys : List PrivateKey} {calls : List (PrivateKey × ℕ)}
    (haccepted : SignaturesAccepted tx keys) (hcount : keys.length = tx.inputs.length)
    (hcalls : calls.Perm keys.zipIdx) :
    ∃ signed, signInputs (spentScripts keys) calls tx = .ok signed ∧ tx.SameButScripts signed ∧
      (∀ i < signed.inputs.length, InputVerifies signed keys i) ∧
        ∀ i, ShortScript signed i := by
  obtain ⟨signed, hsigned, hsame, -, hverifies⟩ := signInputs_spec haccepted hcount
    fun call hcall ↦ List.mem_zipIdx_iff_getElem?.mp (hcalls.mem_iff.mp hcall)
  have hcall : ∀ i < signed.inputs.length, ∃ key, (key, i) ∈ calls := by
    intro i hi
    have hi' : i < keys.length := by rwa [hcount, hsame.length_eq]
    exact ⟨keys[i], hcalls.mem_iff.mpr
      (List.mem_zipIdx_iff_getElem?.mpr (List.getElem?_eq_getElem hi'))⟩
  refine ⟨signed, hsigned, hsame, fun i hi ↦ ?_, fun i input hinput ↦ ?_⟩
  · obtain ⟨key, hmem⟩ := hcall i hi
    exact hverifies _ hmem
  · obtain ⟨key, hmem⟩ := hcall i (List.getElem?_eq_some_iff.mp hinput).1
    exact (signInputs_short hsigned).1 _ hmem input hinput

omit [Crypto] [Signing] in
theorem one_le_compactSizeEncodedLen (value : UInt64) : 1 ≤ compactSizeEncodedLen value := by
  unfold compactSizeEncodedLen
  split_ifs <;> decide

omit [Crypto] [Signing] in
theorem compactSizeEncodedLen_of_le {n : ℕ} (hn : n ≤ maxSignatureScript) :
    compactSizeEncodedLen (UInt64.ofNat n) = 1 := by
  have hlt : n < 2 ^ 64 := hn.trans_lt (by decide)
  have hle : UInt64.ofNat n ≤ 0xfc := by
    rw [UInt64.le_iff_toNat_le, UInt64.toNat_ofNat_of_lt' hlt]
    exact hn.trans (by decide)
  rw [compactSizeEncodedLen, if_pos hle]

omit [Crypto] [Signing] in
/-- The part of the inputs in `serialized_size`. -/
theorem sum_inputSizes_le {inputs inputs' : List TxInput}
    (hsame : inputs.map TxInput.unsigned = inputs'.map TxInput.unsigned)
    (hscripts : ∀ input ∈ inputs', input.scriptSig.length ≤ maxSignatureScript) :
    (inputs'.map fun input ↦
      32 + 4 + compactSizeEncodedLen (UInt64.ofNat input.scriptSig.length) +
        input.scriptSig.length + 4).sum ≤
    (inputs.map fun input ↦
      32 + 4 + compactSizeEncodedLen (UInt64.ofNat input.scriptSig.length) +
        input.scriptSig.length + 4).sum + inputs.length * maxSignatureScript := by
  induction inputs generalizing inputs' with
  | nil =>
      rw [List.map_nil, eq_comm, List.map_eq_nil_iff] at hsame
      rw [hsame]
      exact Nat.zero_le _
  | cons input rest ih =>
      cases inputs' with
      | nil => cases hsame
      | cons input' rest' =>
          have hrest := ih (List.cons.inj hsame).2 fun other hother ↦
            hscripts other (List.mem_cons_of_mem _ hother)
          have hfirst := hscripts input' List.mem_cons_self
          have hencoded := compactSizeEncodedLen_of_le hfirst
          have hold := one_le_compactSizeEncodedLen (UInt64.ofNat input.scriptSig.length)
          simp only [List.map_cons, List.sum_cons, List.length_cons, Nat.succ_mul]
          omega

omit [Crypto] [Signing] in
/-- Short scripts make the transaction longer by what they can hold at most. -/
theorem Transaction.SameButScripts.serializedSize_le (h : tx.SameButScripts signed)
    (hshort : ∀ i, ShortScript signed i) :
    signed.serializedSize ≤ tx.serializedSize + tx.inputs.length * maxSignatureScript := by
  have hinputs := sum_inputSizes_le h.inputs fun input hinput ↦ by
    obtain ⟨i, hi⟩ := List.mem_iff_getElem?.mp hinput
    exact hshort i input hi
  have hcount := h.length_eq
  have houtputs := h.outputs
  unfold serializedSize
  rw [← hcount, ← houtputs]
  omega

omit [Crypto] [Signing] in
theorem Transaction.SameButScripts.outPoints (h : tx.SameButScripts signed) :
    tx.inputs.map TxInput.outPoint = signed.inputs.map TxInput.outPoint := by
  have hpoint : TxInput.outPoint = (fun u : Hash256 × UInt32 × UInt32 ↦
      (⟨u.1, u.2.1⟩ : OutPoint)) ∘ TxInput.unsigned := rfl
  rw [hpoint, ← List.map_map, h.inputs, List.map_map]

omit [Crypto] [Signing] in
theorem Transaction.coinbaseOutPoint_mem (h : tx.isCoinbase = true) :
    coinbaseOutPoint ∈ tx.inputs.map TxInput.outPoint := by
  unfold isCoinbase at h
  split at h
  · rename_i input hinputs
    simp only [Bool.and_eq_true, beq_iff_eq] at h
    rw [hinputs, List.map_singleton, List.mem_singleton, TxInput.outPoint, h.1, h.2]
    rfl
  · cases h

end

/-! ## Valid on a view -/

section

variable {tx signed : Transaction} {keys : List PrivateKey} {view : UtxoSet}

namespace UtxoSet

omit [Crypto] [Signing] in
/-- Inputs that are all unspent can be summed when their sum fits. -/
theorem inputSum_eq_ok_iff {inputs : List TxInput} {sum total : UInt64}
    (hbound : ∀ input ∈ inputs, (view.lookup input.outPoint).isSome) :
    view.inputSum inputs sum = .ok total ↔
      total.toNat = sum.toNat + (inputs.map fun input ↦ view.valueAt input.outPoint).sum := by
  refine ⟨inputSum_toNat, fun htotal ↦ ?_⟩
  induction inputs generalizing sum with
  | nil =>
      rw [List.map_nil, List.sum_nil, Nat.add_zero, UInt64.toNat_inj] at htotal
      rw [inputSum, htotal]
  | cons input rest ih =>
      obtain ⟨entry, hentry⟩ := Option.isSome_iff_exists.mp (hbound input List.mem_cons_self)
      have hvalue : view.getValue input.outPoint = some entry.value := by rw [getValue, hentry]; rfl
      rw [List.map_cons, List.sum_cons, valueAt, hvalue, ← Nat.add_assoc] at htotal
      have hlt := total.toNat_lt
      have hadd : checkedAddU64 sum entry.value = some (sum + entry.value) := by
        rw [checkedAddU64, if_pos]
        change _ = sum.toNat + entry.value.toNat + _ at htotal
        omega
      rw [inputSum, hvalue]
      simp only [hadd]
      apply ih fun other hother ↦ hbound other (List.mem_cons_of_mem _ hother)
      rw [checkedAddU64_eq_some_iff.mp hadd]
      exact htotal

omit [Crypto] [Signing] in
/-- A transaction whose inputs are unspent is valid when these are worth a `u64` and no less
than the outputs. -/
theorem validateTransaction_ok_iff (hcoinbase : tx.isCoinbase = false)
    (hbound : ∀ input ∈ tx.inputs, (view.lookup input.outPoint).isSome) :
    view.validateTransaction tx = .ok () ↔
      (tx.inputs.map fun input ↦ view.valueAt input.outPoint).sum < 2 ^ 64 ∧
        outputsValue tx.outputs ≤
          (tx.inputs.map fun input ↦ view.valueAt input.outPoint).sum := by
  constructor
  · intro h
    refine ⟨?_, validateTransaction_pays hcoinbase h⟩
    unfold validateTransaction at h
    rw [hcoinbase, if_neg Bool.false_ne_true] at h
    cases hin : view.inputSum tx.inputs 0 with
    | error e =>
        rw [hin] at h
        cases h
    | ok total =>
        have htotal := inputSum_toNat hin
        rw [UInt64.toNat_zero, Nat.zero_add] at htotal
        exact htotal ▸ total.toNat_lt
  · rintro ⟨hfits, hpays⟩
    have hin : view.inputSum tx.inputs 0 =
        .ok (UInt64.ofNat (tx.inputs.map fun input ↦ view.valueAt input.outPoint).sum) := by
      rw [inputSum_eq_ok_iff hbound, UInt64.toNat_ofNat_of_lt' hfits]
      exact (Nat.zero_add _).symm
    have hout : outputSum tx = .ok (UInt64.ofNat (outputsValue tx.outputs)) := by
      rw [outputSum, outputSumLoop_eq_ok_iff, UInt64.toNat_ofNat_of_lt' (hpays.trans_lt hfits)]
      exact (Nat.zero_add _).symm
    unfold validateTransaction
    rw [hcoinbase, if_neg Bool.false_ne_true, hin, hout]
    apply if_neg
    rw [UInt64.lt_iff_toNat_lt, UInt64.toNat_ofNat_of_lt' hfits,
      UInt64.toNat_ofNat_of_lt' (hpays.trans_lt hfits)]
    exact Nat.not_lt.mpr hpays

end UtxoSet

omit [Crypto] [Signing] in
/-- The fee is what the inputs are worth more than the outputs. -/
theorem computeFee_toNat {fee : UInt64} (h : computeFee tx view = .ok fee) :
    fee.toNat =
      (tx.inputs.map fun input ↦ view.valueAt input.outPoint).sum - outputsValue tx.outputs := by
  unfold computeFee UtxoSet.outputSum at h
  cases hin : view.inputSum tx.inputs 0 with
  | error e =>
      rw [hin] at h
      cases h
  | ok sumIn =>
      cases hout : UtxoSet.outputSumLoop tx.outputs 0 with
      | error e =>
          rw [hin, hout] at h
          cases h
      | ok sumOut =>
          rw [hin, hout] at h
          change (if sumIn < sumOut then _ else _) = _ at h
          split at h
          · cases h
          · rename_i hle
            have hins := UtxoSet.inputSum_toNat hin
            have houts := UtxoSet.outputSumLoop_eq_ok_iff.mp hout
            rw [UInt64.toNat_zero, Nat.zero_add] at hins houts
            rw [← Except.ok.inj h, UInt64.toNat_sub_of_le _ _ (UInt64.not_lt.mp hle), hins, houts]

/-- The unspent outputs pay the keys in their places. -/
def PaysKeys (view : UtxoSet) (outpoints : List OutPoint) (keys : List PrivateKey) : Prop :=
  List.Forall₂ (fun outpoint key ↦ ∃ value : UInt64,
    view.lookup outpoint = some ⟨value, p2pkhScriptPubkey key.pubkeyHash⟩) outpoints keys

theorem PaysKeys.bound {outpoints : List OutPoint} (h : PaysKeys view outpoints keys) :
    ∀ outpoint ∈ outpoints, (view.lookup outpoint).isSome := by
  intro outpoint hmem
  induction h with
  | nil => cases hmem
  | cons hpays _ ih =>
      rcases List.mem_cons.mp hmem with rfl | hmem
      · obtain ⟨value, hvalue⟩ := hpays
        exact Option.isSome_of_mem hvalue
      · exact ih hmem

theorem PaysKeys.prevScripts {inputs : List TxInput}
    (h : PaysKeys view (inputs.map TxInput.outPoint) keys) :
    Chain.prevScripts view inputs = .ok (spentScripts keys) := by
  induction inputs generalizing keys with
  | nil =>
      cases h
      rfl
  | cons input rest ih =>
      obtain ⟨key, others, ⟨value, hvalue⟩, hrest, rfl⟩ := List.forall₂_cons_left_iff.mp h
      rw [Chain.prevScripts, hvalue, ih hrest]
      rfl

/-- What `accept_tx` asks of the shape of a transaction, with room for the signatures. -/
structure Transaction.Sendable (tx : Transaction) : Prop where
  inputs : tx.inputs ≠ []
  distinct : (tx.inputs.map TxInput.outPoint).Nodup
  outputs : tx.outputs ≠ []
  scripts : ∀ output ∈ tx.outputs, output.scriptPubkey.length ≤ maxScriptSize
  size : tx.serializedSize + tx.inputs.length * maxSignatureScript ≤ maxTransactionSerializedSize

omit [Crypto] [Signing] in
theorem Transaction.Sendable.validateTxStructure (h : tx.Sendable)
    (hsame : tx.SameButScripts signed) (hshort : ∀ i, ShortScript signed i) :
    ∃ size, validateTxStructure signed = .ok size := by
  have hsize := (hsame.serializedSize_le hshort).trans h.size
  have houtputs : signed.outputs.isEmpty = false := by
    rw [← hsame.outputs, List.isEmpty_eq_false_iff]
    exact h.outputs
  have hinputs : signed.inputs.isEmpty = false := by
    rw [List.isEmpty_eq_false_iff, ← List.length_pos_iff, ← hsame.length_eq, List.length_pos_iff]
    exact h.inputs
  have hsigs : (signed.inputs.any fun input ↦ decide (maxScriptSize < input.scriptSig.length)) =
      false := by
    rw [List.any_eq_false]
    intro input hinput
    obtain ⟨i, hi⟩ := List.mem_iff_getElem?.mp hinput
    have hle : input.scriptSig.length ≤ maxScriptSize := (hshort i input hi).trans (by decide)
    simpa using hle
  have hscripts : (signed.outputs.any fun output ↦
      decide (maxScriptSize < output.scriptPubkey.length)) = false := by
    rw [List.any_eq_false, ← hsame.outputs]
    intro output houtput
    simpa using h.scripts output houtput
  refine ⟨signed.serializedSize, ?_⟩
  unfold Bitrst.validateTxStructure
  simp only [Nat.not_lt.mpr hsize, houtputs, hinputs, hsigs, hscripts, if_false, Bool.and_false,
    Bool.false_eq_true]

/-- On a view that pays the keys the signed transaction is valid when its amounts are. -/
theorem isValidForView_signed_iff (hsendable : tx.Sendable) (hsame : tx.SameButScripts signed)
    (hshort : ∀ i, ShortScript signed i)
    (hpays : PaysKeys view (signed.inputs.map TxInput.outPoint) keys)
    (hcoinbase : signed.isCoinbase = false)
    (hverifies : ∀ i < signed.inputs.length, InputVerifies signed keys i) :
    isValidForView signed view = true ↔
      (signed.inputs.map fun input ↦ view.valueAt input.outPoint).sum < 2 ^ 64 ∧
        outputsValue signed.outputs ≤
          (signed.inputs.map fun input ↦ view.valueAt input.outPoint).sum := by
  have hbound : ∀ input ∈ signed.inputs, (view.lookup input.outPoint).isSome :=
    fun input hinput ↦ hpays.bound _ (List.mem_map_of_mem hinput)
  have hdistinct : checkDuplicateInputs signed = .ok () := by
    have hnone : duplicateInput signed.inputs [] = none := by
      refine duplicateInput_eq_none_iff.mpr ⟨?_, fun _ _ ↦ List.not_mem_nil⟩
      rw [← hsame.outPoints]
      exact hsendable.distinct
    rw [checkDuplicateInputs, hnone]
  have hscripts : verifyScripts signed view = .ok () := by
    refine verifyScripts_ok_iff.mpr ⟨_, hpays.prevScripts, ?_⟩
    rw [Chain.verifyInputs_ok_iff]
    intro k input script hk hscript
    obtain ⟨hinput, hscript⟩ : signed.inputs[k]? = some input ∧
      (spentScripts keys)[k]? = some script := List.getElem?_zip_eq_some.mp hk
    obtain ⟨input', key, digest, hinput', hkey, hdigest, hverified⟩ :=
      hverifies k (List.getElem?_eq_some_iff.mp hinput).1
    rw [hinput] at hinput'
    rw [spentScripts, List.getElem?_map, hkey] at hscript
    obtain rfl := Option.some.inj hinput'
    obtain rfl := Option.some.inj hscript
    rw [Nat.zero_add]
    exact ⟨digest, hdigest, hverified⟩
  rw [isValidForView_iff, ← UtxoSet.validateTransaction_ok_iff hcoinbase hbound]
  constructor
  · exact fun h ↦ h.2.2.2.1
  · exact fun h ↦ ⟨hsendable.validateTxStructure hsame hshort, hcoinbase, hdistinct, h, hscripts⟩

end

/-! ## What the wallet holds -/

omit [Crypto] [Signing] in
/-- A script that pays a hash is the one that is made for it. -/
theorem p2pkhPubkeyHash_eq_some {script : Bytes} {pubkeyHash : Hash160}
    (h : p2pkhPubkeyHash script = some pubkeyHash) : script = p2pkhScriptPubkey pubkeyHash := by
  unfold p2pkhPubkeyHash at h
  split at h
  · rename_i hlength
    split at h
    · cases h
    · rename_i hbytes
      simp only [not_or, not_not] at hbytes
      obtain ⟨hdup, hhash, hpush, hequal, hcheck⟩ := hbytes
      obtain rfl := Option.some.inj h
      rcases script with _ | ⟨a, _ | ⟨b, _ | ⟨c, rest⟩⟩⟩
      any_goals cases hlength
      have hrest : rest.length = 22 := by simpa using hlength
      have hhead : rest[20]? = some 0x88 ∧ rest[21]? = some 0xac := by
        have hget : ∀ n < 22, rest[n]? = some (rest.getD n 0) := by
          intro n hn
          rw [List.getD_eq_getElem?_getD, List.getElem?_eq_getElem (hrest ▸ hn)]
          rfl
        rw [hget 20 (by decide), hget 21 (by decide)]
        exact ⟨congrArg some hequal, congrArg some hcheck⟩
      have htail : rest.drop 20 = [0x88, 0xac] := by
        apply List.ext_getElem?
        intro i
        rw [List.getElem?_drop]
        rcases i with _ | _ | i
        · exact hhead.1
        · exact hhead.2
        · have hlast : rest.length ≤ 20 + (i + 1 + 1) := by omega
          rw [List.getElem?_eq_none hlast]
          rfl
      have ha : a = 0x76 := hdup
      have hb : b = 0xa9 := hhash
      have hc : c = 20 := hpush
      have hsplit : rest.take 20 ++ [0x88, 0xac] = rest := by
        rw [← htail, List.take_append_drop]
      change a :: b :: c :: rest = [0x76, 0xa9, 20] ++ rest.take 20 ++ [0x88, 0xac]
      rw [List.append_assoc, hsplit, ha, hb, hc]
      rfl
  · cases h

namespace Wallet

/-- The wallet holds the outputs, and they pay the keys in their places. -/
def Holds (wallet : Wallet) (outpoints : List OutPoint) (keys : List PrivateKey) : Prop :=
  List.Forall₂ (fun outpoint key ↦ ∃ utxo, wallet.utxos.lookup outpoint = some utxo ∧
    p2pkhPubkeyHash utxo.scriptPubkey = some key.pubkeyHash) outpoints keys

/-- What the outputs are worth to the wallet. -/
def heldValue (wallet : Wallet) (outpoints : List OutPoint) : ℕ :=
  (outpoints.map fun outpoint ↦
    ((wallet.utxos.lookup outpoint).map fun utxo ↦ utxo.value.toNat).getD 0).sum

variable [Features] {genesis : Block} {hashes : List Hash160} {chain : Chain} {wallet : Wallet}

omit [Signing] in
/-- What a wallet that has taken all events holds is unspent on the chain. -/
theorem SyncRun.unspent_of_held (h : SyncRun BatchOk genesis hashes chain wallet)
    (taken : chain.takeEvents.1 = .ok []) {outpoint : OutPoint} {utxo : WalletUtxo}
    (hutxo : wallet.utxos.lookup outpoint = some utxo) :
    outpoint ≠ coinbaseOutPoint ∧
      chain.utxo.lookup outpoint = some ⟨utxo.value, utxo.scriptPubkey⟩ := by
  rw [h.lookup_utxos taken outpoint] at hutxo
  obtain ⟨entry, hentry, hseen⟩ := Option.bind_eq_some_iff.mp hutxo
  refine ⟨ne_coinbase_of_unspent h.reachable hentry, ?_⟩
  unfold watchedEntry at hseen
  split at hseen
  · rw [hentry, ← Option.some.inj hseen]
  · cases hseen

/-- The outputs that the wallet holds pay the keys on the chain. -/
theorem Holds.paysKeys (h : SyncRun BatchOk genesis hashes chain wallet)
    (taken : chain.takeEvents.1 = .ok []) {view : UtxoSet} {outpoints : List OutPoint}
    {keys : List PrivateKey} (hheld : wallet.Holds outpoints keys)
    (hview : ∀ outpoint ∈ outpoints, ∀ entry, chain.utxo.lookup outpoint = some entry →
      view.lookup outpoint = some entry) :
    PaysKeys view outpoints keys ∧ coinbaseOutPoint ∉ outpoints ∧
      (outpoints.map view.valueAt).sum = wallet.heldValue outpoints := by
  induction hheld with
  | nil => exact ⟨.nil, List.not_mem_nil, rfl⟩
  | @cons outpoint key outpoints keys hfirst _ ih =>
      obtain ⟨utxo, hutxo, hkey⟩ := hfirst
      obtain ⟨hne, hunspent⟩ := h.unspent_of_held taken hutxo
      have hlookup := hview outpoint List.mem_cons_self _ hunspent
      obtain ⟨hpays, hcoinbase, hvalue⟩ :=
        ih fun other hother ↦ hview other (List.mem_cons_of_mem _ hother)
      refine ⟨.cons ⟨utxo.value, ?_⟩ hpays, ?_, ?_⟩
      · rw [hlookup, p2pkhPubkeyHash_eq_some hkey]
      · rw [List.mem_cons, not_or]
        exact ⟨hne.symm, hcoinbase⟩
      · rw [List.map_cons, List.sum_cons, hvalue, heldValue, heldValue, List.map_cons,
          List.sum_cons, hutxo, UtxoSet.valueAt, UtxoSet.getValue, hlookup]
        rfl

end Wallet

/-! ## Offered to the pool -/

namespace Mempool

variable {pool : Mempool} {chainUtxo : UtxoSet} {tx : Transaction}

/-- The pool has room for the transaction with its signatures, and no resident spends what it
spends. -/
structure HasRoom (pool : Mempool) (tx : Transaction) : Prop where
  count : pool.len + 1 ≤ pool.limits.maxTxCount
  bytes : pool.totalBytes + (tx.serializedSize + tx.inputs.length * maxSignatureScript) ≤
    pool.limits.maxBytes
  unspent : ∀ outpoint ∈ tx.inputs.map TxInput.outPoint, ∀ resident ∈ pool.transactions,
    outpoint ∉ resident.inputs.map TxInput.outPoint

omit [Crypto] [Signing] in
/-- What spends the same outputs is no resident. -/
theorem HasRoom.notMem (h : pool.HasRoom tx) {signed : Transaction}
    (hsame : tx.SameButScripts signed) (hinputs : tx.inputs ≠ []) :
    signed ∉ pool.transactions := by
  intro hresident
  obtain ⟨input, hinput⟩ := List.exists_mem_of_ne_nil tx.inputs hinputs
  have hmem := List.mem_map_of_mem (f := TxInput.outPoint) hinput
  exact h.unspent _ hmem signed hresident (hsame.outPoints ▸ hmem)

omit [Crypto] [Signing] in
theorem HasRoom.fits (h : pool.HasRoom tx) {signed : Transaction}
    (hsame : tx.SameButScripts signed) (hshort : ∀ i, ShortScript signed i) :
    ¬ pool.wouldExceedLimits signed.serializedSize := by
  have hsize := hsame.serializedSize_le hshort
  have hcount := h.count
  have hbytes := h.bytes
  simp only [wouldExceedLimits, Bool.or_eq_true, decide_eq_true_eq]
  omega

omit [Signing] in
/-- The fee of a candidate is the one on the view of the pool. -/
theorem validateCandidate_fee {fee : UInt64} {candidate : MempoolEntry}
    (h : pool.validateCandidate tx chainUtxo = .ok (fee, candidate)) :
    computeFee tx (pool.buildValidationView chainUtxo) = .ok fee := by
  unfold validateCandidate at h
  split at h
  · cases h
  · split at h
    · cases h
    · split at h
      · cases h
      · split at h
        · cases h
        · split at h
          · cases h
          · simp only at h
            split at h
            · cases h
            · split at h
              · cases h
              · rename_i found hfound
                split at h
                · cases h
                · rw [hfound, (Prod.mk.inj (Except.ok.inj h)).1]

end Mempool

namespace Wallet

variable [Features] {genesis : Block} {hashes : List Hash160} {chain : Chain} {wallet : Wallet}

end Wallet

end Bitrst

namespace Bitrst.Sample

open Support Wallet

attribute [local instance] onlyKey

/-- In the place of `first`, a block that pays the key twice. -/
def earning : Block := ⟨header genesisHash twinCoinId 1001 0, [twinCoin]⟩

def earningEvents : List ChainEvent :=
  [.blockConnected 0 genesisHash 1, .blockConnected 1 earning.hash 1]

/-- The chain on which the key was paid, its events taken. -/
def earnings : Chain := (grown earning).takeEvents.2

def earner : Wallet := (applyEvents earnings earningEvents payee).2

theorem earning_run : Opens earning ∧ (grown earning).takeEvents.1 = .ok earningEvents ∧
    earnings.takeEvents.1 = .ok [] := by
  decide +kernel

theorem earner_syncRun : SyncRun BatchOk genesis [publicKeyHash] earnings earner := by
  obtain ⟨hopens, htaken, -⟩ := earning_run
  have hgrown : SyncRun BatchOk genesis [publicKeyHash] (grown earning) payee :=
    opened_syncRun hopens
  apply hgrown.sync htaken
  refine ⟨⟨genesis, rfl, ?_, ?_⟩, ⟨earning, rfl, ?_, ?_⟩, trivial⟩
  · unfold OverwritesHeld
    decide +kernel
  · exact fun hne ↦ (hne (by decide +kernel)).elim
  · unfold OverwritesHeld
    decide +kernel
  · exact fun hne ↦ (hne rfl).elim

theorem unsignedTwin_sendable : unsignedTwin.Sendable :=
  ⟨by decide, by decide +kernel, by decide, by decide, by decide +kernel⟩

def earnerKeys : List PrivateKey := [⟨()⟩, ⟨()⟩]

theorem earner_holds : earner.Holds (unsignedTwin.inputs.map TxInput.outPoint) earnerKeys := by
  have hheld : earner.utxos.lookup ⟨twinCoinId, 0⟩ =
        some ⟨⟨twinCoinId, 0⟩, 30, p2pkhScriptPubkey publicKeyHash⟩ ∧
      earner.utxos.lookup ⟨twinCoinId, 1⟩ =
        some ⟨⟨twinCoinId, 1⟩, 25, p2pkhScriptPubkey publicKeyHash⟩ ∧
      p2pkhPubkeyHash (p2pkhScriptPubkey publicKeyHash) = some publicKeyHash ∧
      PrivateKey.pubkeyHash ⟨()⟩ = publicKeyHash := by
    decide +kernel
  obtain ⟨hfirst, hsecond, hscript, hkey⟩ := hheld
  rw [← hkey] at hscript
  exact .cons ⟨_, hfirst, hkey ▸ hscript⟩ (.cons ⟨_, hsecond, hkey ▸ hscript⟩ .nil)

/-- `unsignedTwin` with both signatures. -/
def twinSpend : Transaction :=
  { unsignedTwin with
    inputs := (signatures.drop 1).mapIdx fun i signed ↦
      ⟨twinCoinId, .ofNat i, 72 :: signed.2 ++ 1 :: 33 :: publicKey, 0xffffffff⟩ }

theorem earnings_txids : Set.InjOn Transaction.txid
    ({tx | ∃ b ∈ earnings.blocks, tx ∈ b.transactions} ∪
      {tx | tx ∈ twinSpend :: (Mempool.new ⟨10, 1000⟩).transactions}) := by
  have hdistinct : ([coin 0, twinCoin, twinSpend].map Transaction.txid).Nodup := by
    decide +kernel
  have hmem : ∀ tx ∈ {tx | ∃ b ∈ earnings.blocks, tx ∈ b.transactions} ∪
      {tx | tx ∈ twinSpend :: (Mempool.new ⟨10, 1000⟩).transactions},
        tx ∈ [coin 0, twinCoin, twinSpend] := by
    rintro tx (⟨b, hb, htx⟩ | htx)
    · have hblocks : b ∈ [genesis, earning] := hb
      simp only [List.mem_cons, List.not_mem_nil, or_false] at hblocks
      rcases hblocks with rfl | rfl
      · rw [List.mem_singleton.mp htx]
        exact List.mem_cons_self
      · rw [List.mem_singleton.mp htx]
        exact List.mem_cons_of_mem _ List.mem_cons_self
    · have hspend : tx ∈ [twinSpend] := htx
      exact List.mem_cons_of_mem _ (List.mem_cons_of_mem _ hspend)
  intro tx htx tx' htx' heq
  exact List.inj_on_of_nodup_map hdistinct (hmem tx htx) (hmem tx' htx') heq

end Bitrst.Sample
