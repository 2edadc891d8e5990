import Bitrst.MempoolConsensus
import Bitrst.Signing

/-!
# The hash type of a signature

The last byte of a signature says which parts of the transaction it signs.  The
digest is the one of `SIGHASH_ALL` whatever the byte, and the byte is split off
before the signature is verified.  So the byte of an accepted signature can be
any, and whoever relays the transaction can replace it.
-/

namespace Bitrst

open Support

/-! ## Sizes of stack items -/

/-- The lengths of pushes have at most four bytes, and no other opcode makes long items. -/
def Stack.Short (stack : Stack) : Prop := ∀ item ∈ stack, item.length < 2 ^ 32

namespace Stack.Short

variable {stack : Stack} {item : Bytes}

theorem nil : Short [] := fun _ h ↦ by cases h

theorem cons (hitem : item.length < 2 ^ 32) (h : Short stack) : Short (item :: stack) := by
  intro other hother
  rcases List.mem_cons.mp hother with rfl | hother
  · exact hitem
  · exact h other hother

theorem dup {next : Stack} (h : Short stack) (hdup : stack.dup = .ok next) : Short next := by
  cases stack with
  | nil => cases hdup
  | cons top stack =>
      cases hdup
      exact cons (h _ List.mem_cons_self) h

theorem pop {rest : Stack} (h : Short stack) (hpop : stack.pop = .ok (item, rest)) :
    item.length < 2 ^ 32 ∧ Short rest := by
  cases stack with
  | nil => cases hpop
  | cons top stack =>
      cases hpop
      exact ⟨h item List.mem_cons_self, fun other hother ↦ h other (List.mem_cons_of_mem _ hother)⟩

end Stack.Short

theorem readPush_length {script data rest : Bytes} {len : ℕ}
    (h : readPush script len = .ok (data, rest)) : data.length = len := by
  unfold readPush at h
  split at h
  · cases h
    exact List.length_take_of_le ‹_›
  · cases h

/-- A length of some bytes is below the power of 256. -/
theorem readLen_lt {width len : ℕ} {script rest : Bytes}
    (h : readLen width script = .ok (len, rest)) : len < 256 ^ width := by
  have hvalue : ∀ bytes : Bytes,
      bytes.foldr (fun byte acc ↦ byte.toNat + 256 * acc) 0 < 256 ^ bytes.length := by
    intro bytes
    induction bytes with
    | nil => exact Nat.one_pos
    | cons byte bytes ih =>
        have hbyte := byte.toNat_lt
        rw [List.foldr_cons, List.length_cons, Nat.pow_succ]
        omega
  unfold readLen at h
  split at h
  · cases h
    refine (hvalue _).trans_le (Nat.pow_le_pow_right (by decide) ?_)
    exact List.length_take_le _ _
  · cases h

/-- What succeeds leaves short items only. -/
def LeavesShort (result : Except ScriptError (Stack × Bytes)) : Prop :=
  ∀ stack rest, result = .ok (stack, rest) → stack.Short

namespace LeavesShort

variable {α : Type} {stack : Stack} {script : Bytes}

theorem error (e : ScriptError) : LeavesShort (.error e) := fun _ _ h ↦ by cases h

theorem ok (h : stack.Short) : LeavesShort (.ok (stack, script)) := by
  intro _ _ hok
  cases hok
  exact h

theorem bind {x : Except ScriptError α} {f : α → Except ScriptError (Stack × Bytes)}
    (h : ∀ a, x = .ok a → LeavesShort (f a)) : LeavesShort (x >>= f) := by
  cases x with
  | error e => exact error e
  | ok a => exact h a rfl

theorem ite {c : Prop} [Decidable c] {x y : Except ScriptError (Stack × Bytes)}
    (hx : c → LeavesShort x) (hy : ¬ c → LeavesShort y) : LeavesShort (if c then x else y) := by
  split
  · exact hx ‹_›
  · exact hy ‹_›

/-- The push of a number of bytes. -/
theorem push {len : ℕ} (hlen : len < 2 ^ 32) (h : stack.Short) : LeavesShort (do
    let (data, rest) ← readPush script len
    .ok (data :: stack, rest)) := by
  apply bind
  rintro ⟨data, rest⟩ hread
  exact ok (h.cons ((readPush_length hread).trans_lt hlen))

/-- The push of a number of bytes that the script gives. -/
theorem pushLen {width : ℕ} (hwidth : width ≤ 4) (h : stack.Short) : LeavesShort (do
    let (len, rest) ← readLen width script
    let (data, rest) ← readPush rest len
    .ok (data :: stack, rest)) := by
  apply bind
  rintro ⟨len, rest⟩ hread
  have hlen : len < 256 ^ 4 := (readLen_lt hread).trans_le (Nat.pow_le_pow_right (by decide) hwidth)
  exact push hlen h

end LeavesShort

section

variable [Crypto]

theorem executeOpcode_short (opcode : UInt8) (script : Bytes) {stack : Stack} (sighash : Hash256)
    (h : stack.Short) : LeavesShort (executeOpcode opcode script stack sighash) := by
  have hone : ([1] : Bytes).length < 2 ^ 32 := by decide
  have hempty : ([] : Bytes).length < 2 ^ 32 := by decide
  unfold executeOpcode
  refine .ite (fun _ ↦ .push (opcode.toNat_lt.trans (by decide)) h) fun _ ↦ ?_
  refine .ite (fun _ ↦ .pushLen (by decide) h) fun _ ↦ ?_
  refine .ite (fun _ ↦ .pushLen (by decide) h) fun _ ↦ ?_
  refine .ite (fun _ ↦ .pushLen (by decide) h) fun _ ↦ ?_
  refine .ite (fun _ ↦ .bind fun next hdup ↦ .ok (h.dup hdup)) fun _ ↦ ?_
  refine .ite (fun _ ↦ .bind fun popped hpop ↦ ?_) fun _ ↦ ?_
  · have hhash : (hash160 popped.1).toList.length < 2 ^ 32 := by
      rw [List.Vector.toList_length]
      decide
    exact .ok ((h.pop hpop).2.cons hhash)
  refine .ite (fun _ ↦ .bind fun right hright ↦ .bind fun left hleft ↦ ?_) fun _ ↦ ?_
  · have hrest := ((h.pop hright).2.pop hleft).2
    refine .ok (hrest.cons ?_)
    split
    · exact hone
    · exact hempty
  refine .ite (fun _ ↦ .bind fun right hright ↦ .bind fun left hleft ↦ ?_) fun _ ↦ ?_
  · exact .ite (fun _ ↦ .error _) fun _ ↦ .ok ((h.pop hright).2.pop hleft).2
  refine .ite (fun _ ↦ .bind fun pubkey hpubkey ↦ .bind fun signature hsignature ↦ ?_) fun _ ↦ ?_
  · have hrest := ((h.pop hpubkey).2.pop hsignature).2
    split
    split
    · exact .error _
    · exact .ok (hrest.cons hone)
  refine .ite (fun _ ↦ .ok (h.cons hempty)) fun _ ↦ ?_
  exact .ite (fun _ ↦ .ok (h.cons hone)) fun _ ↦ .error _

/-- No script leaves an item that a push cannot encode. -/
theorem executeScript_short {script : Bytes} {stack final : Stack} {sighash : Hash256}
    (h : stack.Short) (hrun : executeScript script stack sighash = .ok final) : final.Short := by
  have hloop : ∀ n script stack, Stack.Short stack →
      executeLoop sighash n script stack = .ok final → final.Short := by
    intro n
    induction n with
    | zero =>
        intro script stack h hrun
        cases hrun
        exact h
    | succ n ih =>
        intro script stack h hrun
        cases script with
        | nil =>
            cases hrun
            exact h
        | cons opcode script =>
            simp only [executeLoop] at hrun
            cases hop : executeOpcode opcode script stack sighash with
            | error e =>
                rw [hop] at hrun
                cases hrun
            | ok result =>
                rw [hop] at hrun
                exact ih _ _ (executeOpcode_short opcode script sighash h _ _ hop) hrun
  exact hloop _ _ _ h hrun

/-! ## Inputs that pass -/

/-- The bytes before the hash type verify. -/
def DerVerifies (der pubkey : Bytes) (digest : Hash256) : Prop :=
  der ≠ [] ∧ Crypto.signatureFromDer der ∧ Crypto.publicKeyFromSlice pubkey ∧
    Crypto.verifyEcdsa digest der pubkey

/-- The hash type has no part in the verification. -/
theorem verifyDerSignature_ok_iff {der pubkey : Bytes} {digest : Hash256} (hashType : UInt8) :
    verifyDerSignature (der ++ [hashType]) pubkey digest = .ok () ↔
      DerVerifies der pubkey digest := by
  have hder : (der ++ [hashType]).take ((der ++ [hashType]).length - 1) = der := by simp
  simp only [verifyDerSignature, hder, DerVerifies]
  cases der with
  | nil => simp
  | cons byte der =>
      rw [if_neg (by simp)]
      cases Crypto.signatureFromDer (byte :: der) <;>
        cases Crypto.publicKeyFromSlice pubkey <;>
          cases Crypto.verifyEcdsa digest (byte :: der) pubkey <;> simp

omit [Crypto] in
/-- The spent scripts depend on the outpoints only. -/
theorem Chain.prevScripts_same {tx tx' : Transaction} (h : tx.SameButScripts tx')
    (view : UtxoSet) : prevScripts view tx.inputs = prevScripts view tx'.inputs := by
  obtain ⟨-, hinputs, -, -⟩ := h
  generalize tx.inputs = inputs at hinputs ⊢
  generalize tx'.inputs = inputs' at hinputs ⊢
  induction inputs generalizing inputs' with
  | nil =>
      rw [List.map_nil, eq_comm, List.map_eq_nil_iff] at hinputs
      rw [hinputs]
  | cons input inputs ih =>
      cases inputs' with
      | nil => cases hinputs
      | cons input' inputs' =>
          simp only [List.map_cons, List.cons.injEq, TxInput.unsigned, Prod.mk.injEq] at hinputs
          obtain ⟨⟨hhash, hindex, -⟩, hrest⟩ := hinputs
          cases input
          cases input'
          subst hhash hindex
          simp only [prevScripts, TxInput.outPoint, ih _ hrest]

/-- What the loop over the inputs accepts. -/
theorem Chain.verifyInputs_ok_iff {tx : Transaction} {scripts : List Bytes} {i : ℕ}
    {pairs : List (TxInput × Bytes)} :
    verifyInputs tx scripts i pairs = .ok () ↔
      ∀ k input script, pairs[k]? = some (input, script) → script ≠ [] →
        ∃ digest, sighashAll tx (i + k) scripts = .ok digest ∧
          verifyScript input.scriptSig script digest = .ok () := by
  induction pairs generalizing i with
  | nil => simp [verifyInputs]
  | cons pair rest ih =>
      obtain ⟨input, script⟩ := pair
      have hsplit : (∀ k input' script', ((input, script) :: rest)[k]? = some (input', script') →
          script' ≠ [] → ∃ digest, sighashAll tx (i + k) scripts = .ok digest ∧
            verifyScript input'.scriptSig script' digest = .ok ()) ↔
          (script ≠ [] → ∃ digest, sighashAll tx i scripts = .ok digest ∧
            verifyScript input.scriptSig script digest = .ok ()) ∧
          verifyInputs tx scripts (i + 1) rest = .ok () := by
        rw [ih]
        constructor
        · intro h
          refine ⟨h 0 input script rfl, fun k input' script' hk ↦ ?_⟩
          rw [Nat.add_assoc, Nat.add_comm 1 k]
          exact h (k + 1) input' script' hk
        · rintro ⟨hfirst, hrest⟩ (_ | k) input' script' hk
          · cases hk
            exact hfirst
          · have hlater := hrest k input' script' hk
            rwa [Nat.add_assoc, Nat.add_comm 1 k] at hlater
      rw [hsplit, verifyInputs]
      cases script with
      | nil => simp
      | cons byte script =>
          simp only [List.isEmpty_cons, Bool.false_eq_true, if_false, ne_eq, reduceCtorEq,
            not_false_eq_true, true_imp_iff]
          cases sighashAll tx i scripts with
          | error e => simp
          | ok digest =>
              simp only [Except.ok.injEq, exists_eq_left']
              cases verifyScript input.scriptSig (byte :: script) digest with
              | error e => simp
              | ok _ => simp

namespace Transaction

/-- The input at an index passes the run of its scripts, which leaves the signature that is
verified under the key. -/
def InputPasses (tx : Transaction) (view : UtxoSet) (i : ℕ) (pubkey signature : Bytes) : Prop :=
  ∃ scripts input script digest rest, Chain.prevScripts view tx.inputs = .ok scripts ∧
    tx.inputs[i]? = some input ∧ scripts[i]? = some script ∧
      sighashAll tx i scripts = .ok digest ∧ verifyScript input.scriptSig script digest = .ok () ∧
        executeScript input.scriptSig [] digest = .ok (pubkey :: signature :: rest)

variable {tx tx' : Transaction} {view : UtxoSet} {scripts : List Bytes} {i : ℕ}
  {pubkeyHash : Hash160} {pubkey signature der : Bytes}

/-- What an input that spends a P2PKH output passes with verifies. -/
theorem InputPasses.verified (h : tx.InputPasses view i pubkey signature)
    (hscripts : Chain.prevScripts view tx.inputs = .ok scripts)
    (hlocked : scripts[i]? = some (p2pkhScriptPubkey pubkeyHash)) :
    ∃ digest, sighashAll tx i scripts = .ok digest ∧ hash160 pubkey = pubkeyHash ∧
      pubkey.length < 2 ^ 32 ∧ signature.length < 2 ^ 32 ∧
        verifyDerSignature signature pubkey digest = .ok () := by
  obtain ⟨scripts', input, script, digest, rest, hscripts', hinput, hscript, hdigest, hpasses,
    hrun⟩ := h
  obtain rfl := Except.ok.inj (hscripts.symm.trans hscripts')
  obtain rfl := Option.some.inj (hlocked.symm.trans hscript)
  obtain ⟨pubkey', signature', rest', hrun', hhash, hverified⟩ :=
    (verifyScript_ok_iff _ _ _).mp hpasses
  rw [hrun] at hrun'
  cases hrun'
  have hshort := executeScript_short Stack.Short.nil hrun
  exact ⟨digest, hdigest, hhash, hshort _ (by simp), hshort _ (by simp), hverified⟩

/-- The template with a signature that verifies passes. -/
theorem inputPasses_withScript {digest : Hash256} (hi : i < tx.inputs.length)
    (hscripts : Chain.prevScripts view tx.inputs = .ok scripts)
    (hlocked : scripts[i]? = some (p2pkhScriptPubkey pubkeyHash))
    (hdigest : sighashAll tx i scripts = .ok digest) (hhash : hash160 pubkey = pubkeyHash)
    (hpubkey : pubkey.length < 2 ^ 32) (hsignature : signature.length < 2 ^ 32)
    (hverified : verifyDerSignature signature pubkey digest = .ok ()) :
    (tx.withScript i (p2pkhScriptSig signature pubkey)).InputPasses view i pubkey signature := by
  have hsame := tx.withScript_same i (p2pkhScriptSig signature pubkey)
  have hrun := executeScript_p2pkhScriptSig hsignature hpubkey digest
  rw [Chain.prevScripts_same hsame] at hscripts
  rw [sighashAll_congr hsame] at hdigest
  refine ⟨scripts, { tx.inputs[i] with scriptSig := p2pkhScriptSig signature pubkey }, _, digest,
    [], hscripts, ?_, hlocked, hdigest, ?_, hrun⟩
  · rw [withScript, List.getElem?_modify_eq, List.getElem?_eq_getElem hi]
    rfl
  · exact (verifyScript_ok_iff _ _ _).mpr ⟨pubkey, signature, [], hrun, hhash, hverified⟩

/-- The hash type of a signature is not checked: for the bytes before it, the accepted byte is
always the one of `SIGHASH_ALL`, or at most one byte is accepted, exactly when they do not
verify at all. -/
theorem inputPasses_hashType_iff
    (hscripts : Chain.prevScripts view tx.inputs = .ok scripts) (hi : i < tx.inputs.length)
    (hlocked : scripts[i]? = some (p2pkhScriptPubkey pubkeyHash)) (pubkey der : Bytes) :
    ((∀ (signed : Transaction) (hashType : UInt8), tx.SameButScripts signed →
        signed.InputPasses view i pubkey (der ++ [hashType]) →
          hashType = sighashAllType.toUInt8) ↔
      ¬ ∃ digest, sighashAll tx i scripts = .ok digest ∧ hash160 pubkey = pubkeyHash ∧
        pubkey.length < 2 ^ 32 ∧ der.length + 1 < 2 ^ 32 ∧ DerVerifies der pubkey digest) ∧
    ((∀ (signed altered : Transaction) (hashType other : UInt8), tx.SameButScripts signed →
        tx.SameButScripts altered → signed.InputPasses view i pubkey (der ++ [hashType]) →
          other ≠ hashType → ¬ altered.InputPasses view i pubkey (der ++ [other])) ↔
      ¬ ∃ digest, sighashAll tx i scripts = .ok digest ∧ hash160 pubkey = pubkeyHash ∧
        pubkey.length < 2 ^ 32 ∧ der.length + 1 < 2 ^ 32 ∧ DerVerifies der pubkey digest) := by
  -- Bytes that verify pass under any hash type, and bytes that pass under some verify.
  have hany : ∀ digest, sighashAll tx i scripts = .ok digest → hash160 pubkey = pubkeyHash →
      pubkey.length < 2 ^ 32 → der.length + 1 < 2 ^ 32 → DerVerifies der pubkey digest →
        ∀ hashType : UInt8, ∃ signed, tx.SameButScripts signed ∧
          signed.InputPasses view i pubkey (der ++ [hashType]) := by
    intro digest hdigest hhash hpubkey hder hverifies hashType
    refine ⟨_, tx.withScript_same i _, inputPasses_withScript hi hscripts hlocked hdigest hhash
      hpubkey ?_ ((verifyDerSignature_ok_iff hashType).mpr hverifies)⟩
    rwa [List.length_append]
  have hsome : ∀ (signed : Transaction) (hashType : UInt8), tx.SameButScripts signed →
      signed.InputPasses view i pubkey (der ++ [hashType]) →
        ∃ digest, sighashAll tx i scripts = .ok digest ∧ hash160 pubkey = pubkeyHash ∧
          pubkey.length < 2 ^ 32 ∧ der.length + 1 < 2 ^ 32 ∧ DerVerifies der pubkey digest := by
    intro signed hashType hsame hpasses
    rw [Chain.prevScripts_same hsame] at hscripts
    obtain ⟨digest, hdigest, hhash, hpubkey, hsignature, hverified⟩ :=
      hpasses.verified hscripts hlocked
    rw [← sighashAll_congr hsame] at hdigest
    rw [List.length_append] at hsignature
    exact ⟨digest, hdigest, hhash, hpubkey, hsignature,
      (verifyDerSignature_ok_iff hashType).mp hverified⟩
  constructor
  · constructor
    · rintro honly ⟨digest, hdigest, hhash, hpubkey, hder, hverifies⟩
      obtain ⟨signed, hsame, hpasses⟩ := hany digest hdigest hhash hpubkey hder hverifies 0
      exact absurd (honly signed 0 hsame hpasses) (by decide)
    · intro hnot signed hashType hsame hpasses
      exact (hnot (hsome signed hashType hsame hpasses)).elim
  · constructor
    · rintro hone ⟨digest, hdigest, hhash, hpubkey, hder, hverifies⟩
      have hpass := hany digest hdigest hhash hpubkey hder hverifies
      obtain ⟨signed, hsame, hpasses⟩ := hpass 0
      obtain ⟨altered, hsame', hpasses'⟩ := hpass 1
      exact hone signed altered 0 1 hsame hsame' hpasses (by decide) hpasses'
    · intro hnot signed altered hashType other hsame hsame' hpasses hother hpasses'
      exact hnot (hsome signed hashType hsame hpasses)

end Transaction

end

end Bitrst

namespace Bitrst.Sample

open Transaction

/-- The coin that `payingSpend` spends. -/
def payingView : UtxoSet := Finmap.insert ⟨payingCoinId, 0⟩ ⟨50, payingScript⟩ ∅

/-- `payingSpend` with another hash type on the same signature. -/
def noneSpend : Transaction :=
  spend payingCoinId (72 :: derSignature ++ 2 :: 33 :: publicKey)

/-- A signature that is marked as one over none of the outputs is accepted. -/
theorem otherHashType_accepted : ¬ ∀ (tx : Transaction) (view : UtxoSet) (scripts : List Bytes)
    (i : ℕ) (pubkeyHash : Hash160) (pubkey signature : Bytes),
    Chain.prevScripts view tx.inputs = .ok scripts →
      scripts[i]? = some (p2pkhScriptPubkey pubkeyHash) → verifyScripts tx view = .ok () →
        tx.ScriptsPass view → tx.InputPasses view i pubkey signature →
          signature.getLast? = some sighashAllType.toUInt8 := by
  intro h
  have hmempool : verifyScripts noneSpend payingView = .ok () := by decide +kernel
  have hscripts : Chain.prevScripts payingView noneSpend.inputs = .ok [payingScript] := by
    decide +kernel
  have hdigest : sighashAll noneSpend 0 [payingScript] = .ok spendDigest := by decide +kernel
  have hrun : executeScript (72 :: derSignature ++ 2 :: 33 :: publicKey) [] spendDigest =
      .ok [publicKey, derSignature ++ [2]] := by decide +kernel
  have hverified : verifyScript (72 :: derSignature ++ 2 :: 33 :: publicKey) payingScript
      spendDigest = .ok () := by decide +kernel
  have hlast := h noneSpend payingView [payingScript] 0 publicKeyHash publicKey
    (derSignature ++ [2]) hscripts rfl hmempool (verifyScripts_ok_iff.mp hmempool)
    ⟨_, _, _, _, _, hscripts, rfl, rfl, hdigest, hverified, hrun⟩
  rw [List.getLast?_concat] at hlast
  exact absurd (Option.some.inj hlast) (by decide)

theorem derSignature_hashType :
    ((∀ (signed : Transaction) (hashType : UInt8), payingSpend.SameButScripts signed →
        signed.InputPasses payingView 0 publicKey (derSignature ++ [hashType]) →
          hashType = sighashAllType.toUInt8) ↔
      ¬ ∃ digest, sighashAll payingSpend 0 [payingScript] = .ok digest ∧
        hash160 publicKey = publicKeyHash ∧ publicKey.length < 2 ^ 32 ∧
          derSignature.length + 1 < 2 ^ 32 ∧ DerVerifies derSignature publicKey digest) ∧
    ((∀ (signed altered : Transaction) (hashType other : UInt8),
        payingSpend.SameButScripts signed → payingSpend.SameButScripts altered →
          signed.InputPasses payingView 0 publicKey (derSignature ++ [hashType]) →
            other ≠ hashType →
              ¬ altered.InputPasses payingView 0 publicKey (derSignature ++ [other])) ↔
      ¬ ∃ digest, sighashAll payingSpend 0 [payingScript] = .ok digest ∧
        hash160 publicKey = publicKeyHash ∧ publicKey.length < 2 ^ 32 ∧
          derSignature.length + 1 < 2 ^ 32 ∧ DerVerifies derSignature publicKey digest) := by
  have hscripts : Chain.prevScripts payingView payingSpend.inputs = .ok [payingScript] := by
    decide +kernel
  exact inputPasses_hashType_iff hscripts Nat.one_pos rfl publicKey derSignature

end Bitrst.Sample
