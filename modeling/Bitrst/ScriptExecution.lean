import Bitrst.Script
import Bitrst.Wire

/-!
# The spending condition of P2PKH scripts

The templates of `p2pkh.rs` and what the interpreter makes of them.  A signature
script is any bytes; the interpreter reads it opcode by opcode, and what the
public key script does depends on the two topmost items only.  The encoder of
pushes is inverted by the decoder for every length below `2 ^ 32`.
-/

namespace Bitrst

open Support

/-! ## Templates -/

/-- `push_data`; the last form keeps the low 32 bits of the length. -/
def pushData (data : Bytes) : Bytes :=
  if data.length = 0 then [0x00]
  else if data.length ≤ 75 then UInt8.ofNat data.length :: data
  else if data.length ≤ 255 then 0x4c :: UInt8.ofNat data.length :: data
  else if data.length ≤ 65535 then 0x4d :: (u16ToLeBytes (UInt16.ofNat data.length) ++ data)
  else 0x4e :: (u32ToLeBytes (UInt32.ofNat data.length) ++ data)

def p2pkhScriptPubkey (pubkeyHash : Hash160) : Bytes :=
  [0x76, 0xa9, 20] ++ pubkeyHash.toList ++ [0x88, 0xac]

def p2pkhScriptSig (signatureWithHashtype pubkey : Bytes) : Bytes :=
  pushData signatureWithHashtype ++ pushData pubkey

/-! ## Running opcode after opcode -/

/-- What succeeds leaves no more bytes to be read than before. -/
def Consumes (script : Bytes) (result : Except ScriptError (Stack × Bytes)) : Prop :=
  ∀ stack rest, result = .ok (stack, rest) → rest.length ≤ script.length

namespace Consumes

variable {script : Bytes} {α : Type}

theorem error (e : ScriptError) : Consumes script (.error e) := fun _ _ h ↦ by cases h

theorem same (stack : Stack) : Consumes script (.ok (stack, script)) := by
  intro _ _ h
  cases h
  exact le_rfl

theorem bind {x : Except ScriptError α} {f : α → Except ScriptError (Stack × Bytes)}
    (h : ∀ a, x = .ok a → Consumes script (f a)) : Consumes script (x >>= f) := by
  cases x with
  | error e => exact error e
  | ok a => exact h a rfl

theorem ite {c : Prop} [Decidable c] {x y : Except ScriptError (Stack × Bytes)}
    (hx : Consumes script x) (hy : Consumes script y) : Consumes script (if c then x else y) := by
  split
  · exact hx
  · exact hy

theorem shorter {before : Bytes} {x : Except ScriptError (Stack × Bytes)}
    (h : Consumes script x) (hle : script.length ≤ before.length) : Consumes before x :=
  fun stack rest hx ↦ (h stack rest hx).trans hle

/-- The push of a number of bytes. -/
theorem push (len : ℕ) (stack : Stack) :
    Consumes script (do
      let (data, rest) ← readPush script len
      .ok (data :: stack, rest)) := by
  apply bind
  rintro ⟨data, rest⟩ hread
  unfold readPush at hread
  split at hread
  · cases hread
    exact (same _).shorter (by simp)
  · cases hread

/-- The push of a number of bytes that the script gives. -/
theorem pushLen (width : ℕ) (stack : Stack) :
    Consumes script (do
      let (len, rest) ← readLen width script
      let (data, rest) ← readPush rest len
      .ok (data :: stack, rest)) := by
  apply bind
  rintro ⟨len, rest⟩ hread
  unfold readLen at hread
  split at hread
  · cases hread
    exact (push _ _).shorter (by simp)
  · cases hread

end Consumes

section

variable [Crypto]

/-- No opcode adds to the bytes still to be read. -/
theorem executeOpcode_consumes (opcode : UInt8) (script : Bytes) (stack : Stack)
    (sighash : Hash256) : Consumes script (executeOpcode opcode script stack sighash) := by
  unfold executeOpcode
  refine .ite (.push _ _) <| .ite (.pushLen 1 _) <| .ite (.pushLen 2 _) <| .ite (.pushLen 4 _) <|
    .ite (.bind fun _ _ ↦ .same _) <| .ite (.bind fun _ _ ↦ .same _) <|
    .ite (.bind fun _ _ ↦ .bind fun _ _ ↦ .same _) <|
    .ite (.bind fun _ _ ↦ .bind fun _ _ ↦ .ite (.error _) (.same _)) <|
    .ite (.bind fun _ _ ↦ .bind fun _ _ ↦ ?_) <|
    .ite (.same _) <| .ite (.same _) (.error _)
  split
  split
  · exact .error _
  · exact .same _

/-- Turns beyond the length of the script do nothing. -/
theorem executeLoop_eq {sighash : Hash256} {n m : ℕ} {script : Bytes} {stack : Stack}
    (hn : script.length ≤ n) (hm : script.length ≤ m) :
    executeLoop sighash n script stack = executeLoop sighash m script stack := by
  induction n generalizing m script stack with
  | zero =>
      obtain rfl := List.eq_nil_of_length_eq_zero (Nat.le_zero.mp hn)
      cases m <;> rfl
  | succ n ih =>
      cases script with
      | nil => cases m <;> rfl
      | cons opcode script =>
          cases m with
          | zero => cases hm
          | succ m =>
              simp only [List.length_cons, Nat.add_le_add_iff_right] at hn hm
              simp only [executeLoop]
              cases hop : executeOpcode opcode script stack sighash with
              | error e => rfl
              | ok result =>
                  have hrest := executeOpcode_consumes opcode script stack sighash _ _ hop
                  exact ih (hrest.trans hn) (hrest.trans hm)

@[simp] theorem executeScript_nil (stack : Stack) (sighash : Hash256) :
    executeScript [] stack sighash = .ok stack := rfl

theorem executeScript_cons (opcode : UInt8) (script : Bytes) (stack : Stack)
    (sighash : Hash256) :
    executeScript (opcode :: script) stack sighash =
      (executeOpcode opcode script stack sighash >>= fun (next, rest) ↦
        executeScript rest next sighash) := by
  unfold executeScript
  simp only [List.length_cons, executeLoop]
  cases hop : executeOpcode opcode script stack sighash with
  | error e => rfl
  | ok result =>
      exact executeLoop_eq (executeOpcode_consumes opcode script stack sighash _ _ hop) le_rfl

/-- A script that starts with an opcode which succeeds goes on after it. -/
theorem executeScript_step {opcode : UInt8} {script rest : Bytes} {stack next : Stack}
    {sighash : Hash256} (h : executeOpcode opcode script stack sighash = .ok (next, rest)) :
    executeScript (opcode :: script) stack sighash = executeScript rest next sighash := by
  rw [executeScript_cons, h]
  rfl

/-! ## Pushes -/

omit [Crypto] in
theorem readPush_append (data rest : Bytes) :
    readPush (data ++ rest) data.length = .ok (data, rest) := by
  rw [readPush, if_pos (by simp)]
  simp

omit [Crypto] in
/-- The length bytes denote the number that `leNat` gives them. -/
theorem readLen_append {width : ℕ} {prefixed : Bytes} (hwidth : prefixed.length = width)
    (rest : Bytes) : readLen width (prefixed ++ rest) = .ok (leNat prefixed, rest) := by
  have hvalue : ∀ bytes : Bytes,
      bytes.foldr (fun byte acc ↦ byte.toNat + 256 * acc) 0 = leNat bytes := by
    intro bytes
    induction bytes with
    | nil => rfl
    | cons byte bytes ih => rw [List.foldr_cons, ih, leNat_cons]
  subst hwidth
  rw [readLen, if_pos (by simp), List.take_left, List.drop_left, hvalue]

theorem executeOpcode_direct {opcode : UInt8} {data rest : Bytes} (stack : Stack)
    (sighash : Hash256) (hopcode : opcode.toNat = data.length) (hpos : data ≠ [])
    (hle : data.length ≤ 75) :
    executeOpcode opcode (data ++ rest) stack sighash = .ok (data :: stack, rest) := by
  have hrange : 1 ≤ opcode ∧ opcode ≤ 75 := by
    have hlength := List.length_pos_iff.mpr hpos
    rw [UInt8.le_iff_toNat_le, UInt8.le_iff_toNat_le, hopcode]
    exact ⟨hlength, hle⟩
  rw [executeOpcode, if_pos hrange, hopcode, readPush_append]
  rfl

theorem executeOpcode_pushdata {opcode : UInt8} (width : ℕ) (prefixed : Bytes)
    {data rest : Bytes} (stack : Stack) (sighash : Hash256)
    (hopcode : (opcode, width) ∈ [((0x4c : UInt8), 1), (0x4d, 2), (0x4e, 4)])
    (hwidth : prefixed.length = width) (hlength : leNat prefixed = data.length) :
    executeOpcode opcode (prefixed ++ (data ++ rest)) stack sighash =
      .ok (data :: stack, rest) := by
  have hread := readLen_append hwidth (data ++ rest)
  have hpush : (do
      let (len, rest) ← readLen width (prefixed ++ (data ++ rest))
      let (data, rest) ← readPush rest len
      Except.ok (data :: stack, rest)) = Except.ok (ε := ScriptError) (data :: stack, rest) := by
    rw [hread, hlength]
    change (readPush (data ++ rest) data.length >>= _) = _
    rw [readPush_append]
    rfl
  simp only [List.mem_cons, Prod.mk.injEq, List.not_mem_nil, or_false] at hopcode
  rcases hopcode with ⟨rfl, rfl⟩ | ⟨rfl, rfl⟩ | ⟨rfl, rfl⟩ <;> exact hpush

/-- Running an encoded push pushes what was encoded. -/
theorem executeScript_pushData {data : Bytes} (hlength : data.length < 2 ^ 32) (rest : Bytes)
    (stack : Stack) (sighash : Hash256) :
    executeScript (pushData data ++ rest) stack sighash =
      executeScript rest (data :: stack) sighash := by
  unfold pushData
  by_cases hempty : data.length = 0
  · rw [if_pos hempty, List.eq_nil_of_length_eq_zero hempty]
    exact executeScript_step rfl
  rw [if_neg hempty]
  by_cases hdirect : data.length ≤ 75
  · rw [if_pos hdirect]
    apply executeScript_step
    apply executeOpcode_direct stack sighash _ (by rintro rfl; exact hempty rfl) hdirect
    exact UInt8.toNat_ofNat_of_lt' (hdirect.trans_lt (by decide))
  rw [if_neg hdirect]
  by_cases hbyte : data.length ≤ 255
  · rw [if_pos hbyte]
    apply executeScript_step
    apply executeOpcode_pushdata 1 [UInt8.ofNat data.length] stack sighash (by simp) rfl
    rw [leNat_cons, leNat_nil, UInt8.toNat_ofNat_of_lt' (hbyte.trans_lt (by decide)),
      Nat.mul_zero, Nat.add_zero]
  rw [if_neg hbyte]
  by_cases hword : data.length ≤ 65535
  · rw [if_pos hword, List.cons_append, List.append_assoc]
    apply executeScript_step
    apply executeOpcode_pushdata 2 _ stack sighash (by simp) rfl
    rw [WireReader.leNat_u16ToLeBytes, UInt16.toNat_ofNat_of_lt' (hword.trans_lt (by decide))]
  · rw [if_neg hword, List.cons_append, List.append_assoc]
    apply executeScript_step
    apply executeOpcode_pushdata 4 _ stack sighash (by simp) rfl
    rw [WireReader.leNat_u32ToLeBytes, UInt32.toNat_ofNat_of_lt' (by omega)]

/-- The signature script leaves exactly its two items, the public key on top. -/
theorem executeScript_p2pkhScriptSig {signature pubkey : Bytes}
    (hsignature : signature.length < 2 ^ 32) (hpubkey : pubkey.length < 2 ^ 32)
    (sighash : Hash256) :
    executeScript (p2pkhScriptSig signature pubkey) [] sighash = .ok [pubkey, signature] := by
  have hrest := executeScript_pushData hpubkey [] [signature] sighash
  rw [List.append_nil] at hrest
  rw [p2pkhScriptSig, executeScript_pushData hsignature, hrest]
  rfl

/-! ## The public key script -/

theorem executeOpcode_equalVerify (script : Bytes) (left right : Bytes) (stack : Stack)
    (sighash : Hash256) :
    executeOpcode 0x88 script (right :: left :: stack) sighash =
      if left ≠ right then .error .equalVerifyFailed else .ok (stack, script) := rfl

theorem executeOpcode_checkSig (script : Bytes) (pubkey signature : Bytes) (stack : Stack)
    (sighash : Hash256) :
    executeOpcode 0xac script (pubkey :: signature :: stack) sighash =
      match verifyDerSignature signature pubkey sighash with
      | .error _ => .error .checkSigFailed
      | .ok () => .ok ([1] :: stack, script) := rfl

/-- What the public key script does to a stack. -/
theorem executeScript_p2pkhScriptPubkey (pubkeyHash : Hash160) (stack : Stack)
    (sighash : Hash256) :
    executeScript (p2pkhScriptPubkey pubkeyHash) stack sighash =
      match stack with
      | [] => .error .stackUnderflow
      | pubkey :: rest =>
          if (hash160 pubkey).toList ≠ pubkeyHash.toList then .error .equalVerifyFailed
          else
            match rest with
            | [] => .error .stackUnderflow
            | signature :: rest =>
                match verifyDerSignature signature pubkey sighash with
                | .error _ => .error .checkSigFailed
                | .ok () => .ok ([1] :: rest) := by
  cases stack with
  | nil => rfl
  | cons pubkey rest =>
      have hdup : executeScript (p2pkhScriptPubkey pubkeyHash) (pubkey :: rest) sighash =
          executeScript ([0xa9, 20] ++ pubkeyHash.toList ++ [0x88, 0xac])
            (pubkey :: pubkey :: rest) sighash := executeScript_step rfl
      have hhash : executeScript ([0xa9, 20] ++ pubkeyHash.toList ++ [0x88, 0xac])
            (pubkey :: pubkey :: rest) sighash =
          executeScript ([20] ++ pubkeyHash.toList ++ [0x88, 0xac])
            ((hash160 pubkey).toList :: pubkey :: rest) sighash := executeScript_step rfl
      have hpush : executeScript ([20] ++ pubkeyHash.toList ++ [0x88, 0xac])
            ((hash160 pubkey).toList :: pubkey :: rest) sighash =
          executeScript [0x88, 0xac]
            (pubkeyHash.toList :: (hash160 pubkey).toList :: pubkey :: rest) sighash := by
        change executeScript (20 :: (pubkeyHash.toList ++ [0x88, 0xac])) _ sighash = _
        apply executeScript_step
        have hlength : pubkeyHash.toList.length = 20 := pubkeyHash.toList_length
        apply executeOpcode_direct _ sighash (by rw [hlength]; rfl) _ (by omega)
        exact List.ne_nil_of_length_pos (by omega)
      rw [hdup, hhash, hpush, executeScript_cons, executeOpcode_equalVerify]
      dsimp only
      by_cases hequal : (hash160 pubkey).toList = pubkeyHash.toList
      · rw [if_neg (not_not.mpr hequal), if_neg (not_not.mpr hequal)]
        change executeScript [0xac] (pubkey :: rest) sighash = _
        rw [executeScript_cons]
        cases rest with
        | nil => rfl
        | cons signature rest =>
            rw [executeOpcode_checkSig]
            dsimp only
            cases verifyDerSignature signature pubkey sighash <;> rfl
      · rw [if_pos hequal, if_pos hequal]
        rfl

/-- The spending condition is exact: a signature script is accepted exactly when it leaves a
public key with the right hash on a signature that verifies. -/
theorem verifyScript_ok_iff (scriptSig : Bytes) (pubkeyHash : Hash160) (sighash : Hash256) :
    verifyScript scriptSig (p2pkhScriptPubkey pubkeyHash) sighash = .ok () ↔
      ∃ pubkey signature rest,
        executeScript scriptSig [] sighash = .ok (pubkey :: signature :: rest) ∧
          hash160 pubkey = pubkeyHash ∧
            verifyDerSignature signature pubkey sighash = .ok () := by
  unfold verifyScript
  cases hrun : executeScript scriptSig [] sighash with
  | error e =>
      refine ⟨fun h ↦ ?_, fun ⟨_, _, _, hok, _⟩ ↦ ?_⟩
      · cases h
      · cases hok
  | ok stack =>
      change (executeScript (p2pkhScriptPubkey pubkeyHash) stack sighash >>= _) = _ ↔ _
      rw [executeScript_p2pkhScriptPubkey]
      cases stack with
      | nil =>
          refine ⟨fun h ↦ ?_, fun ⟨_, _, _, hok, _⟩ ↦ ?_⟩
          · cases h
          · cases hok
      | cons pubkey rest =>
          dsimp only
          by_cases hequal : (hash160 pubkey).toList = pubkeyHash.toList
          · rw [if_neg (not_not.mpr hequal)]
            cases rest with
            | nil =>
                refine ⟨fun h ↦ ?_, fun ⟨_, _, _, hok, _⟩ ↦ ?_⟩
                · cases h
                · cases hok
            | cons signature rest =>
                dsimp only
                cases hverify : verifyDerSignature signature pubkey sighash with
                | error e =>
                    refine ⟨fun h ↦ ?_, fun ⟨_, _, _, hok, _, hverified⟩ ↦ ?_⟩
                    · cases h
                    · cases hok
                      rw [hverify] at hverified
                      cases hverified
                | ok _ =>
                    refine ⟨fun _ ↦ ?_, fun _ ↦ rfl⟩
                    exact ⟨pubkey, signature, rest, rfl, List.Vector.toList_injective hequal,
                      hverify⟩
          · rw [if_pos hequal]
            refine ⟨fun h ↦ ?_, fun ⟨_, _, _, hok, hhash, _⟩ ↦ ?_⟩
            · cases h
            · cases hok
              exact (hequal (congrArg _ hhash)).elim

/-- The spending condition, and what the template for signature scripts leaves. -/
theorem p2pkh_exact (scriptSig : Bytes) (pubkeyHash : Hash160) (sighash : Hash256) :
    (verifyScript scriptSig (p2pkhScriptPubkey pubkeyHash) sighash = .ok () ↔
      ∃ pubkey signature rest,
        executeScript scriptSig [] sighash = .ok (pubkey :: signature :: rest) ∧
          hash160 pubkey = pubkeyHash ∧
            verifyDerSignature signature pubkey sighash = .ok ()) ∧
    ∀ signature pubkey : Bytes, signature.length < 2 ^ 32 → pubkey.length < 2 ^ 32 →
      scriptSig = p2pkhScriptSig signature pubkey →
        executeScript scriptSig [] sighash = .ok [pubkey, signature] := by
  refine ⟨verifyScript_ok_iff scriptSig pubkeyHash sighash, ?_⟩
  rintro signature pubkey hsignature hpubkey rfl
  exact executeScript_p2pkhScriptSig hsignature hpubkey sighash

end

end Bitrst
