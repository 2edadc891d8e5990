import Bitrst.BlockCodec
import Bitrst.Messages
import Bitrst.Support.Directory

/-!
# The file store

`store/disk.rs`: one file for each block, named by the hash of its header in
hexadecimal, written under a temporary name, synced and renamed.  Names are the bytes
of file names in the store's directory, whose entries are files.
-/

namespace Bitrst

open Support

abbrev FileName := Bytes

abbrev StoreCall := DirCall FileName UInt8

abbrev StoreDisk := Disk FileName UInt8

/-- The errors of `get_block`, apart from those of the file system. -/
inductive StoreError
  | corrupt (context : String)
  | hashMismatch (expected actual : Hash256)
  deriving DecidableEq

/-- The text of a decode error. -/
def DecodeError.display : DecodeError → String
  | .truncated context needed remaining =>
      s!"truncated {context}: needed {needed} bytes, only {remaining} remain"
  | .nonCanonicalCompactSize context value =>
      s!"non-canonical CompactSize for {context}: {value}"
  | .limitExceeded context actual limit => s!"{context} length {actual} exceeds limit {limit}"
  | .trailingBytes context remaining => s!"trailing bytes after {context}: {remaining}"

namespace FileBlockStore

/-! ## Names -/

def hexDigit (n : ℕ) : UInt8 := if n < 10 then UInt8.ofNat (48 + n) else UInt8.ofNat (87 + n)

/-- `encode_hex`: two lowercase digits for each byte. -/
def encodeHex (bytes : Bytes) : Bytes :=
  bytes.flatMap fun byte ↦ [hexDigit (byte.toNat / 16), hexDigit (byte.toNat % 16)]

def blockPath (hash : Hash256) : FileName := encodeHex hash.toList

def tempSuffix : FileName := utf8 ".tmp"

def tempPath (hash : Hash256) : FileName := blockPath hash ++ tempSuffix

def isAsciiHexdigit (byte : UInt8) : Bool :=
  (0x30 ≤ byte && byte ≤ 0x39) || (0x41 ≤ byte && byte ≤ 0x46) || (0x61 ≤ byte && byte ≤ 0x66)

def isValidBlockFilename (name : FileName) : Bool :=
  decide (name.length = 64) && name.all isAsciiHexdigit

/-- What `cleanup_temp_files` removes. -/
def isResidue (name : FileName) : Bool :=
  match fromUtf8 name with
  | none => true
  | some _ => tempSuffix.isSuffixOf name || !isValidBlockFilename name

theorem hexDigit_injective : ∀ n < 16, ∀ m < 16, hexDigit n = hexDigit m → n = m := by
  decide

theorem isAsciiHexdigit_hexDigit : ∀ n < 16, isAsciiHexdigit (hexDigit n) = true := by
  decide

theorem length_encodeHex (bytes : Bytes) : (encodeHex bytes).length = 2 * bytes.length := by
  induction bytes with
  | nil => rfl
  | cons byte bytes ih =>
      rw [encodeHex, List.flatMap_cons, List.length_append, ← encodeHex, ih, List.length_cons]
      simp only [List.length_cons, List.length_nil]
      omega

theorem isAsciiHexdigit_of_mem {bytes : Bytes} {digit : UInt8} (hdigit : digit ∈ encodeHex bytes) :
    isAsciiHexdigit digit = true := by
  obtain ⟨byte, -, hmem⟩ := List.mem_flatMap.mp hdigit
  have hlt := byte.toNat_lt
  simp only [List.mem_cons, List.not_mem_nil, or_false] at hmem
  rcases hmem with rfl | rfl
  · exact isAsciiHexdigit_hexDigit _ (by omega)
  · exact isAsciiHexdigit_hexDigit _ (Nat.mod_lt _ (by decide))

theorem encodeHex_injective {bytes bytes' : Bytes} (h : encodeHex bytes = encodeHex bytes') :
    bytes = bytes' := by
  induction bytes generalizing bytes' with
  | nil =>
      have hlength := congrArg List.length h
      rw [length_encodeHex, length_encodeHex, List.length_nil] at hlength
      exact (List.eq_nil_of_length_eq_zero (by omega)).symm
  | cons byte bytes ih =>
      cases bytes' with
      | nil => cases h
      | cons byte' bytes' =>
          have hlt := byte.toNat_lt
          have hlt' := byte'.toNat_lt
          simp only [encodeHex, List.flatMap_cons, List.cons_append, List.nil_append,
            List.cons.injEq] at h
          obtain ⟨hhigh, hlow, hrest⟩ := h
          have hdiv := hexDigit_injective _ (by omega) _ (by omega) hhigh
          have hmod := hexDigit_injective _ (Nat.mod_lt _ (by decide)) _
            (Nat.mod_lt _ (by decide)) hlow
          rw [ih hrest, UInt8.toNat_inj.mp (by omega : byte.toNat = byte'.toNat)]

theorem blockPath_injective {hash hash' : Hash256} (h : blockPath hash = blockPath hash') :
    hash = hash' :=
  List.Vector.toList_injective (encodeHex_injective h)

theorem length_blockPath (hash : Hash256) : (blockPath hash).length = 64 := by
  rw [blockPath, length_encodeHex, List.Vector.toList_length]

/-- No block is stored under a temporary name. -/
theorem blockPath_ne_tempPath (hash hash' : Hash256) : blockPath hash ≠ tempPath hash' := by
  intro h
  have hlength := congrArg List.length h
  rw [tempPath, List.length_append, length_blockPath, length_blockPath] at hlength
  exact absurd hlength (by decide)

/-- Text in ASCII is text. -/
theorem isSome_fromUtf8 {bytes : Bytes} (hascii : ∀ byte ∈ bytes, byte < 128) :
    (fromUtf8 bytes).isSome = true := by
  have hvalid : ByteArray.IsValidUTF8 ⟨bytes.toArray⟩ := by
    induction bytes using List.reverseRecOn with
    | nil => exact ByteArray.isValidUTF8_empty
    | append_singleton bytes byte ih =>
        have hbyte := hascii byte (by simp)
        have hle : byte.toNat ≤ 127 := Nat.le_of_lt_succ (UInt8.lt_iff_toNat_lt.mp hbyte)
        have hsize : (Char.ofUInt8 byte).utf8Size = 1 :=
          Char.utf8Size_eq_one_iff.mpr (UInt32.le_iff_toNat_le.mpr hle)
        have hpush := (ih fun b hb ↦ hascii b (List.mem_append_left _ hb)).push hsize
        have hback : (Char.ofUInt8 byte).toUInt8 = byte := UInt8.toUInt8_toUInt32 byte
        have hsnoc : (ByteArray.mk bytes.toArray).push byte = ⟨(bytes ++ [byte]).toArray⟩ :=
          congrArg ByteArray.mk (List.push_toArray _ _)
        rwa [hback, hsnoc] at hpush
  rw [fromUtf8, String.fromUTF8?, dif_pos hvalid]
  rfl

/-- No block is stored under a name that is cleaned up. -/
theorem isResidue_blockPath (hash : Hash256) : isResidue (blockPath hash) = false := by
  have hdigits : ∀ digit ∈ blockPath hash, isAsciiHexdigit digit = true :=
    fun digit hdigit ↦ isAsciiHexdigit_of_mem hdigit
  have htext : (fromUtf8 (blockPath hash)).isSome = true := by
    refine isSome_fromUtf8 fun digit hdigit ↦ ?_
    have hascii := hdigits digit hdigit
    simp only [isAsciiHexdigit, Bool.or_eq_true, Bool.and_eq_true, decide_eq_true_eq,
      UInt8.le_iff_toNat_le] at hascii
    rw [UInt8.lt_iff_toNat_lt]
    simp only [UInt8.reduceToNat] at hascii ⊢
    omega
  have hsuffix : tempSuffix.isSuffixOf (blockPath hash) = false := by
    rw [← Bool.not_eq_true, List.isSuffixOf_iff_suffix]
    intro hsuffix
    have hdot := hdigits 0x2e (hsuffix.mem (by decide))
    exact absurd hdot (by decide)
  have hvalid : isValidBlockFilename (blockPath hash) = true := by
    rw [isValidBlockFilename, length_blockPath, Bool.and_eq_true, List.all_eq_true]
    exact ⟨rfl, hdigits⟩
  obtain ⟨name, hname⟩ := Option.isSome_iff_exists.mp htext
  rw [isResidue, hname]
  simp only [hsuffix, hvalid, Bool.not_true, Bool.or_false]

/-! ## Calls -/

/-- The calls of `cleanup_temp_files` on a directory with the listed names. -/
def cleanupTempFiles (names : List FileName) : List StoreCall :=
  (names.filter isResidue).map .remove

section

variable [Crypto]

/-- The calls of `put_block`, the sync of the directory among them. -/
def putBlock (block : Block) : List StoreCall :=
  [.create (tempPath block.hash), .append (tempPath block.hash) block.serialize,
    .sync (tempPath block.hash), .rename (tempPath block.hash) (blockPath block.hash), .syncDir]

/-- `commit`. -/
def commit : List StoreCall := [.syncDir]

def getBlock (files : HashMap FileName (File UInt8)) (hash : Hash256) :
    Except StoreError (Option Block) :=
  match files.lookup (blockPath hash) with
  | none => .ok none
  | some file =>
      match Block.deserialize file.bytes with
      | .error (.truncated _ _ _) => .error (.corrupt "truncated block file")
      | .error (.trailingBytes _ _) => .error (.corrupt "truncated block file")
      | .error (.limitExceeded _ _ _) => .error (.corrupt "oversized block file")
      | .error (.nonCanonicalCompactSize context value) =>
          .error (.corrupt ("malformed block file: " ++
            (DecodeError.nonCanonicalCompactSize context value).display))
      | .ok block =>
          if block.hash ≠ hash then .error (.hashMismatch hash block.hash)
          else .ok (some block)

/-! ## Sessions -/

/-- What the owner of the store is doing, with the calls still to be made. -/
inductive Activity
  | closed
  | opening (calls : List StoreCall)
  | idle
  | working (calls : List StoreCall)
  | putting (block : Block) (calls : List StoreCall)

/-- The directory, with the blocks that `put_block` was called for and those for which it
returned `Ok`. -/
structure Session where
  disk : StoreDisk
  activity : Activity
  put : List Block
  stored : List Block

/-- One step of the owner of the store or of its environment.  Every call of the file
system is a step, and a crash may come between any two. -/
inductive Step : Session → Session → Prop
  | opens {disk : StoreDisk} {put stored : List Block} (names : List FileName)
      (listed : ∀ name, name ∈ names ↔ disk.seen.lookup name ≠ none) :
      Step ⟨disk, .closed, put, stored⟩ ⟨disk, .opening (cleanupTempFiles names), put, stored⟩
  | cleans {disk : StoreDisk} {put stored : List Block} (call : StoreCall)
      (calls : List StoreCall) :
      Step ⟨disk, .opening (call :: calls), put, stored⟩
        ⟨call.perform disk, .opening calls, put, stored⟩
  /-- A name that is not text is left behind when it cannot be removed. -/
  | skips {disk : StoreDisk} {put stored : List Block} (name : FileName)
      (calls : List StoreCall) (unreadable : fromUtf8 name = none) :
      Step ⟨disk, .opening (.remove name :: calls), put, stored⟩
        ⟨disk, .opening calls, put, stored⟩
  | opened {disk : StoreDisk} {put stored : List Block} :
      Step ⟨disk, .opening [], put, stored⟩ ⟨disk, .idle, put, stored⟩
  /-- A call of `cleanup_temp_files` fails, and `new` with it. -/
  | refused {disk : StoreDisk} {put stored : List Block} (calls : List StoreCall) :
      Step ⟨disk, .opening calls, put, stored⟩ ⟨disk, .closed, put, stored⟩
  | begins {disk : StoreDisk} {put stored : List Block} (block : Block)
      (decodable : block.Decodable) :
      Step ⟨disk, .idle, put, stored⟩ ⟨disk, .putting block (putBlock block), block :: put, stored⟩
  | writes {disk : StoreDisk} {put stored : List Block} (block : Block) (call : StoreCall)
      (calls : List StoreCall) :
      Step ⟨disk, .putting block (call :: calls), put, stored⟩
        ⟨call.perform disk, .putting block calls, put, stored⟩
  | returns {disk : StoreDisk} {put stored : List Block} (block : Block) :
      Step ⟨disk, .putting block [], put, stored⟩ ⟨disk, .idle, put, block :: stored⟩
  /-- A call of `put_block` fails, and `put_block` with it. -/
  | fails {disk disk' : StoreDisk} {put stored : List Block} (block : Block) (call : StoreCall)
      (calls : List StoreCall) (unfinished : call.Unfinished disk disk') :
      Step ⟨disk, .putting block (call :: calls), put, stored⟩ ⟨disk', .idle, put, stored⟩
  | commits {disk : StoreDisk} {put stored : List Block} :
      Step ⟨disk, .idle, put, stored⟩ ⟨disk, .working commit, put, stored⟩
  | works {disk : StoreDisk} {put stored : List Block} (call : StoreCall)
      (calls : List StoreCall) :
      Step ⟨disk, .working (call :: calls), put, stored⟩
        ⟨call.perform disk, .working calls, put, stored⟩
  | worked {disk : StoreDisk} {put stored : List Block} (calls : List StoreCall) :
      Step ⟨disk, .working calls, put, stored⟩ ⟨disk, .idle, put, stored⟩
  | flushes {disk disk' : StoreDisk} {activity : Activity} {put stored : List Block}
      (flushed : Disk.Flushed disk disk') :
      Step ⟨disk, activity, put, stored⟩ ⟨disk', activity, put, stored⟩
  | crash {disk disk' : StoreDisk} {activity : Activity} {put stored : List Block}
      (crashed : Disk.Crashed disk disk') :
      Step ⟨disk, activity, put, stored⟩ ⟨disk', .closed, put, stored⟩
  | exits {disk : StoreDisk} {put stored : List Block} :
      Step ⟨disk, .idle, put, stored⟩ ⟨disk, .closed, put, stored⟩

/-- Nothing was put, and the directory holds no block file. -/
def Fresh (session : Session) : Prop :=
  session.activity = .closed ∧ session.put = [] ∧ session.stored = [] ∧
    ∀ hash, session.disk.seen.lookup (blockPath hash) = none ∧
      session.disk.settled.lookup (blockPath hash) = none

/-- A state that steps lead to from a fresh directory. -/
def Reachable (session : Session) : Prop :=
  ∃ start, Fresh start ∧ Relation.ReflTransGen Step start session

end

end FileBlockStore

end Bitrst
