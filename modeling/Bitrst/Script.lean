import Bitrst.Transaction

/-!
# Scripts and signature hashes

The P2PKH interpreter of `bitrst-script` and the legacy `SIGHASH_ALL` digest.
The program counter is represented by the bytes still to be read, the stack by
a list whose head is its top.
-/

namespace Bitrst

inductive ScriptError
  | unexpectedEnd
  | stackUnderflow
  | unknownOpcode (opcode : UInt8)
  | equalVerifyFailed
  | checkSigFailed
  | evalFalse
  deriving DecidableEq

abbrev Stack := List Bytes

namespace Stack

def pop : Stack → Except ScriptError (Bytes × Stack)
  | [] => .error .stackUnderflow
  | item :: rest => .ok (item, rest)

def dup : Stack → Except ScriptError Stack
  | [] => .error .stackUnderflow
  | item :: rest => .ok (item :: item :: rest)

/-- Truthiness of a stack item: some byte is nonzero, a final `0x80` apart. -/
def scriptBool : Bytes → Bool
  | [] => false
  | [byte] => byte != 0 && byte != 0x80
  | byte :: rest => byte != 0 || scriptBool rest

def topIsTrue : Stack → Except ScriptError Bool
  | [] => .error .stackUnderflow
  | item :: _ => .ok (scriptBool item)

end Stack

/-- The next `len` bytes and the bytes after them. -/
def readPush (script : Bytes) (len : ℕ) : Except ScriptError (Bytes × Bytes) :=
  if len ≤ script.length then .ok (script.take len, script.drop len) else .error .unexpectedEnd

/-- A little-endian length of `width` bytes and the bytes after it. -/
def readLen (width : ℕ) (script : Bytes) : Except ScriptError (ℕ × Bytes) :=
  if width ≤ script.length then
    .ok ((script.take width).foldr (fun byte acc ↦ byte.toNat + 256 * acc) 0, script.drop width)
  else .error .unexpectedEnd

def readU8 : Bytes → Except ScriptError (ℕ × Bytes) := readLen 1

def readU16 : Bytes → Except ScriptError (ℕ × Bytes) := readLen 2

def readU32 : Bytes → Except ScriptError (ℕ × Bytes) := readLen 4

section

variable [Crypto]

/-- One opcode: the stack after it and the bytes after it. -/
def executeOpcode (opcode : UInt8) (script : Bytes) (stack : Stack) (sighash : Hash256) :
    Except ScriptError (Stack × Bytes) :=
  if 1 ≤ opcode ∧ opcode ≤ 75 then do
    let (data, rest) ← readPush script opcode.toNat
    .ok (data :: stack, rest)
  else if opcode = 0x4c then do
    let (len, rest) ← readU8 script
    let (data, rest) ← readPush rest len
    .ok (data :: stack, rest)
  else if opcode = 0x4d then do
    let (len, rest) ← readU16 script
    let (data, rest) ← readPush rest len
    .ok (data :: stack, rest)
  else if opcode = 0x4e then do
    let (len, rest) ← readU32 script
    let (data, rest) ← readPush rest len
    .ok (data :: stack, rest)
  else if opcode = 0x76 then do
    let stack ← stack.dup
    .ok (stack, script)
  else if opcode = 0xa9 then do
    let (item, stack) ← stack.pop
    .ok ((hash160 item).toList :: stack, script)
  else if opcode = 0x87 then do
    let (right, stack) ← stack.pop
    let (left, stack) ← Stack.pop stack
    .ok ((if left = right then [1] else []) :: stack, script)
  else if opcode = 0x88 then do
    let (right, stack) ← stack.pop
    let (left, stack) ← Stack.pop stack
    if left ≠ right then .error .equalVerifyFailed else .ok (stack, script)
  else if opcode = 0xac then do
    let (pubkey, stack) ← stack.pop
    let (signature, stack) ← Stack.pop stack
    match verifyDerSignature signature pubkey sighash with
    | .error _ => .error .checkSigFailed
    | .ok () => .ok ([1] :: stack, script)
  else if opcode = 0x00 then .ok ([] :: stack, script)
  else if opcode = 0x51 then .ok ([1] :: stack, script)
  else .error (.unknownOpcode opcode)

/-- The `while pc < script.len()` loop; every turn reads at least its opcode. -/
def executeLoop (sighash : Hash256) : ℕ → Bytes → Stack → Except ScriptError Stack
  | 0, _, stack => .ok stack
  | _ + 1, [], stack => .ok stack
  | n + 1, opcode :: script, stack => do
      let (stack, rest) ← executeOpcode opcode script stack sighash
      executeLoop sighash n rest stack

def executeScript (script : Bytes) (stack : Stack) (sighash : Hash256) :
    Except ScriptError Stack :=
  executeLoop sighash script.length script stack

def verifyScript (scriptSig scriptPubkey : Bytes) (sighash : Hash256) :
    Except ScriptError Unit := do
  let stack ← executeScript scriptSig [] sighash
  let stack ← executeScript scriptPubkey stack sighash
  if ← stack.topIsTrue then .ok () else .error .evalFalse

/-! ## Signature hash -/

inductive SighashError
  | inputIndexOutOfRange
  | prevScriptCountMismatch
  deriving DecidableEq

def sighashAllType : UInt32 := 1

/-- The digest signs the spent script at `inputIndex` and empty scripts elsewhere. -/
def sighashInput (inputIndex : ℕ) (i : ℕ) (input : TxInput) (prevScript : Bytes) : Bytes :=
  let script := if i = inputIndex then prevScript else []
  input.previousOutput.toList ++ u32ToLeBytes input.index ++
    writeCompactSize (UInt64.ofNat script.length) ++ script ++ u32ToLeBytes input.sequence

def sighashInputs (inputIndex : ℕ) : ℕ → List TxInput → List Bytes → Bytes
  | i, input :: inputs, prevScript :: prevScripts =>
      sighashInput inputIndex i input prevScript ++
        sighashInputs inputIndex (i + 1) inputs prevScripts
  | _, _, _ => []

def sighashAll (tx : Transaction) (inputIndex : ℕ) (prevScriptPubkeys : List Bytes) :
    Except SighashError Hash256 :=
  if tx.inputs.length ≤ inputIndex then .error .inputIndexOutOfRange
  else if prevScriptPubkeys.length ≠ tx.inputs.length then .error .prevScriptCountMismatch
  else
    .ok <| sha256d <|
      i32ToLeBytes tx.version ++ writeCompactSize (UInt64.ofNat tx.inputs.length) ++
        sighashInputs inputIndex 0 tx.inputs prevScriptPubkeys ++
          writeCompactSize (UInt64.ofNat tx.outputs.length) ++
            tx.outputs.flatMap TxOutput.serialize ++ u32ToLeBytes tx.lockTime ++
              u32ToLeBytes sighashAllType

end

end Bitrst
