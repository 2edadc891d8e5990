import Bitrst.ScriptExecution
import Bitrst.SignatureHash
import Bitrst.Wallet

/-!
# Signing the inputs of a transaction

`sign_p2pkh_input` and the key it signs with.  A call rewrites the signature
script of one input, which no digest depends on, so the inputs can be signed one
after the other in any order and all verify at the end.
-/

namespace Bitrst

/-- The functions that keys and signatures are made with in `secp256k1`. -/
class Signing where
  SecretKey : Type
  /-- `PublicKey::from_secret_key`, in compressed form. -/
  publicKeyFromSecretKey : SecretKey → List.Vector UInt8 33
  /-- `sign_ecdsa`, serialized as DER; the buffer for it has 72 bytes. -/
  signEcdsa : Hash256 → SecretKey → { der : Bytes // der.length ≤ 72 }

structure PrivateKey [Signing] where
  inner : Signing.SecretKey

section

variable [Crypto] [Signing]

namespace PrivateKey

def publicKey (key : PrivateKey) : List.Vector UInt8 33 :=
  Signing.publicKeyFromSecretKey key.inner

def pubkeyHash (key : PrivateKey) : Hash160 := hash160 key.publicKey.toList

end PrivateKey

def signDerWithHashtype (secretKey : Signing.SecretKey) (sighash : Hash256)
    (sighashType : UInt8) : Bytes :=
  (Signing.signEcdsa sighash secretKey).val ++ [sighashType]

def signP2pkhInput (tx : Transaction) (inputIndex : ℕ) (prevScriptPubkeys : List Bytes)
    (key : PrivateKey) : Except WalletError Transaction :=
  if tx.inputs.length ≤ inputIndex then .error .inputIndexOutOfRange
  else
    match sighashAll tx inputIndex prevScriptPubkeys with
    | .error e => .error (.sighash e)
    | .ok sighash =>
        let signature := signDerWithHashtype key.inner sighash sighashAllType.toUInt8
        .ok { tx with
          inputs := tx.inputs.modify inputIndex fun input ↦
            { input with scriptSig := p2pkhScriptSig signature key.publicKey.toList } }

/-- Calls of `sign_p2pkh_input`, one after the other. -/
def signInputs (prevScriptPubkeys : List Bytes) :
    List (PrivateKey × ℕ) → Transaction → Except WalletError Transaction
  | [], tx => .ok tx
  | (key, inputIndex) :: rest, tx =>
      match signP2pkhInput tx inputIndex prevScriptPubkeys key with
      | .error e => .error e
      | .ok signed => signInputs prevScriptPubkeys rest signed

/-- The scripts that pay the keys. -/
def spentScripts (keys : List PrivateKey) : List Bytes :=
  keys.map fun key ↦ p2pkhScriptPubkey key.pubkeyHash

/-- The curve code verifies what it signs, at the digests of the transaction. -/
def SignaturesAccepted (tx : Transaction) (keys : List PrivateKey) : Prop :=
  ∀ (i : ℕ) (key : PrivateKey) (digest : Hash256), keys[i]? = some key →
    sighashAll tx i (spentScripts keys) = .ok digest →
      verifyDerSignature (signDerWithHashtype key.inner digest sighashAllType.toUInt8)
        key.publicKey.toList digest = .ok ()

/-- The input at an index verifies in the transaction as it is. -/
def InputVerifies (tx : Transaction) (keys : List PrivateKey) (i : ℕ) : Prop :=
  ∃ input key digest, tx.inputs[i]? = some input ∧ keys[i]? = some key ∧
    sighashAll tx i (spentScripts keys) = .ok digest ∧
      verifyScript input.scriptSig (p2pkhScriptPubkey key.pubkeyHash) digest = .ok ()

variable {tx : Transaction} {keys : List PrivateKey} {i j : ℕ} {key : PrivateKey}

theorem SignaturesAccepted.congr {tx' : Transaction} (h : SignaturesAccepted tx keys)
    (hsame : tx.SameButScripts tx') : SignaturesAccepted tx' keys := by
  intro i key digest hkey hdigest
  rw [← sighashAll_congr hsame] at hdigest
  exact h i key digest hkey hdigest

/-- What a signature and its key leave on the stack is accepted. -/
theorem verifyScript_signed {digest : Hash256}
    (hverified : verifyDerSignature
      (signDerWithHashtype key.inner digest sighashAllType.toUInt8) key.publicKey.toList
        digest = .ok ()) :
    verifyScript (p2pkhScriptSig (signDerWithHashtype key.inner digest sighashAllType.toUInt8)
      key.publicKey.toList) (p2pkhScriptPubkey key.pubkeyHash) digest = .ok () := by
  have hsignature :
      (signDerWithHashtype key.inner digest sighashAllType.toUInt8).length < 2 ^ 32 := by
    have hder := (Signing.signEcdsa digest key.inner).property
    rw [signDerWithHashtype, List.length_append, List.length_singleton]
    omega
  have hpubkey : key.publicKey.toList.length < 2 ^ 32 := by
    rw [List.Vector.toList_length]
    decide
  apply (verifyScript_ok_iff _ _ _).mpr
  exact ⟨_, _, [], executeScript_p2pkhScriptSig hsignature hpubkey digest, rfl, hverified⟩

/-- The transaction with another signature script in one place. -/
def Transaction.withScript (tx : Transaction) (i : ℕ) (script : Bytes) : Transaction :=
  { tx with inputs := tx.inputs.modify i fun input ↦ { input with scriptSig := script } }

omit [Crypto] [Signing] in
theorem Transaction.withScript_same (tx : Transaction) (i : ℕ) (script : Bytes) :
    tx.SameButScripts (tx.withScript i script) := by
  refine ⟨rfl, ?_, rfl, rfl⟩
  apply List.ext_getElem?
  intro j
  rw [withScript, List.getElem?_map, List.getElem?_map, List.getElem?_modify]
  cases tx.inputs[j]? with
  | none => rfl
  | some input => by_cases hij : i = j <;> simp [hij, TxInput.unsigned]

/-- One call signs its input and leaves the rest of the transaction alone. -/
theorem signP2pkhInput_spec (haccepted : SignaturesAccepted tx keys)
    (hcount : keys.length = tx.inputs.length) (hkey : keys[i]? = some key) :
    ∃ signed, signP2pkhInput tx i (spentScripts keys) key = .ok signed ∧
      tx.SameButScripts signed ∧ InputVerifies signed keys i ∧
        ∀ j, j ≠ i → signed.inputs[j]? = tx.inputs[j]? := by
  have hindex : i < tx.inputs.length := hcount ▸ (List.getElem?_eq_some_iff.mp hkey).1
  have hscripts : (spentScripts keys).length = tx.inputs.length := by
    rw [spentScripts, List.length_map, hcount]
  obtain ⟨digest, hdigest⟩ : ∃ digest, sighashAll tx i (spentScripts keys) = .ok digest :=
    ⟨_, sighashAll_eq hindex hscripts⟩
  have hverifies := verifyScript_signed (haccepted i key digest hkey hdigest)
  generalize hscript : p2pkhScriptSig
    (signDerWithHashtype key.inner digest sighashAllType.toUInt8) key.publicKey.toList = script
      at hverifies
  have hsame := tx.withScript_same i script
  have hinput : (tx.withScript i script).inputs[i]? =
      some { tx.inputs[i] with scriptSig := script } := by
    rw [Transaction.withScript, List.getElem?_modify_eq, List.getElem?_eq_getElem hindex]
    rfl
  have hdigest' : sighashAll (tx.withScript i script) i (spentScripts keys) = .ok digest := by
    rw [← sighashAll_congr hsame, hdigest]
  refine ⟨tx.withScript i script, ?_, hsame, ?_, fun j hj ↦ ?_⟩
  · rw [signP2pkhInput, if_neg (Nat.not_le.mpr hindex), hdigest]
    simp only [hscript]
    rfl
  · exact ⟨_, key, digest, hinput, hkey, hdigest', hverifies⟩
  · exact List.getElem?_modify_ne _ _ hj.symm

/-- An input that verifies still does after another call. -/
theorem InputVerifies.kept {signed : Transaction} (h : InputVerifies tx keys j)
    (hsame : tx.SameButScripts signed) (hsigned : InputVerifies signed keys i)
    (hother : ∀ j, j ≠ i → signed.inputs[j]? = tx.inputs[j]?) : InputVerifies signed keys j := by
  by_cases hj : j = i
  · exact hj ▸ hsigned
  · obtain ⟨input, key, digest, hinput, hkey, hdigest, hverifies⟩ := h
    refine ⟨input, key, digest, (hother j hj).trans hinput, hkey, ?_, hverifies⟩
    rw [← sighashAll_congr hsame, hdigest]

/-- Calls with the right keys succeed, what verified before still does, and so does every input
that was signed. -/
theorem signInputs_spec {calls : List (PrivateKey × ℕ)} (haccepted : SignaturesAccepted tx keys)
    (hcount : keys.length = tx.inputs.length)
    (hcalls : ∀ call ∈ calls, keys[call.2]? = some call.1) :
    ∃ signed, signInputs (spentScripts keys) calls tx = .ok signed ∧ tx.SameButScripts signed ∧
      (∀ j, InputVerifies tx keys j → InputVerifies signed keys j) ∧
        ∀ call ∈ calls, InputVerifies signed keys call.2 := by
  induction calls generalizing tx with
  | nil => exact ⟨tx, rfl, .refl tx, fun _ h ↦ h, fun _ h ↦ by cases h⟩
  | cons call rest ih =>
      obtain ⟨key, i⟩ := call
      have hkey := hcalls (key, i) List.mem_cons_self
      obtain ⟨next, hnext, hsame, hverifies, hother⟩ := signP2pkhInput_spec haccepted hcount hkey
      obtain ⟨signed, hsigned, hsame', hkept, hrest⟩ := ih (haccepted.congr hsame)
        (hcount.trans hsame.length_eq) (fun call h ↦ hcalls call (List.mem_cons_of_mem _ h))
      refine ⟨signed, ?_, hsame.trans hsame', fun j hj ↦ ?_, fun call hcall ↦ ?_⟩
      · rw [signInputs, hnext]
        exact hsigned
      · exact hkept j (hj.kept hsame hverifies hother)
      · rcases List.mem_cons.mp hcall with rfl | hcall
        · exact hkept i hverifies
        · exact hrest call hcall

/-- The inputs of a transaction can be signed in any order: every call succeeds, and at the end
every input verifies. -/
theorem signInputs_any_order {tx : Transaction} {keys : List PrivateKey}
    {calls : List (PrivateKey × ℕ)} (haccepted : SignaturesAccepted tx keys)
    (hcount : keys.length = tx.inputs.length) (hcalls : calls.Perm keys.zipIdx) :
    ∃ signed, signInputs (spentScripts keys) calls tx = .ok signed ∧ tx.SameButScripts signed ∧
      ∀ i < tx.inputs.length, InputVerifies signed keys i := by
  obtain ⟨signed, hsigned, hsame, -, hverifies⟩ := @signInputs_spec _ _ tx keys calls haccepted
    hcount fun call hcall ↦ List.mem_zipIdx_iff_getElem?.mp (hcalls.mem_iff.mp hcall)
  refine ⟨signed, hsigned, hsame, fun i hi ↦ ?_⟩
  have hi' : i < keys.length := hcount ▸ hi
  have hcall : (keys[i], i) ∈ calls :=
    hcalls.mem_iff.mpr (List.mem_zipIdx_iff_getElem?.mpr (List.getElem?_eq_getElem hi'))
  exact hverifies _ hcall

end

end Bitrst

namespace Bitrst.Sample

open Support

/-- The one key.  It signs no other digests than those of `signatures`. -/
local instance onlyKey : Signing where
  SecretKey := Unit
  publicKeyFromSecretKey _ := ⟨publicKey, by decide⟩
  signEcdsa digest _ := ⟨((signatures.lookup digest).getD []).take 72, by simp⟩

/-- A coinbase that pays the key twice. -/
def twinCoin : Transaction where
  version := 1
  inputs := [⟨zeroHash, 0xffffffff, [4, 0, 0, 0], 0xffffffff⟩]
  outputs := [⟨30, p2pkhScriptPubkey publicKeyHash⟩, ⟨25, p2pkhScriptPubkey publicKeyHash⟩]
  lockTime := 0

def twinCoinId : Hash256 := beVector 32
  0x443b3140826f6db92bb2e5fa8fd415af003ce5eb061162743f0f7a0edf9d25c0

/-- Spends both outputs. -/
def unsignedTwin : Transaction where
  version := 1
  inputs := [⟨twinCoinId, 0, [], 0xffffffff⟩, ⟨twinCoinId, 1, [], 0xffffffff⟩]
  outputs := [⟨50, []⟩]
  lockTime := 0

theorem unsignedTwin_accepted : SignaturesAccepted unsignedTwin [⟨()⟩, ⟨()⟩] := by
  have hverified : ∀ i < 2, ∀ digest,
      sighashAll unsignedTwin i (spentScripts [⟨()⟩, ⟨()⟩]) = .ok digest →
        verifyDerSignature (signDerWithHashtype () digest sighashAllType.toUInt8) publicKey
          digest = .ok () := by
    intro i hi digest hdigest
    have hsigned : (match sighashAll unsignedTwin i (spentScripts [⟨()⟩, ⟨()⟩]) with
        | .ok digest => decide (verifyDerSignature
            (signDerWithHashtype () digest sighashAllType.toUInt8) publicKey digest = .ok ())
        | .error _ => false) = true := by
      interval_cases i <;> decide +kernel
    rw [hdigest] at hsigned
    exact of_decide_eq_true hsigned
  intro i key digest hkey hdigest
  exact hverified i (List.getElem?_eq_some_iff.mp hkey).1 digest hdigest

/-- The second input is signed first. -/
theorem unsignedTwin_signs :
    ∃ signed, signInputs (spentScripts [⟨()⟩, ⟨()⟩]) [(⟨()⟩, 1), (⟨()⟩, 0)] unsignedTwin =
        .ok signed ∧ unsignedTwin.SameButScripts signed ∧
      ∀ i < unsignedTwin.inputs.length, InputVerifies signed [⟨()⟩, ⟨()⟩] i :=
  signInputs_any_order unsignedTwin_accepted rfl (.swap _ _ _)

end Bitrst.Sample
