import Bitrst.Support.Codec
import Bitrst.Support.LittleEndian
import Bitrst.Transaction

/-!
# Decoding the wire format

`wire.rs`.  A reader keeps the bytes that it has not read; every error names the
field being decoded.  Every reading method accepts exactly what the encoder
writes for the field.
-/

namespace Bitrst

open Support

inductive DecodeError
  | truncated (context : String) (needed remaining : ℕ)
  | nonCanonicalCompactSize (context : String) (value : UInt64)
  | limitExceeded (context : String) (actual : UInt64) (limit : ℕ)
  | trailingBytes (context : String) (remaining : ℕ)
  deriving DecidableEq

/-- The state is what `bytes` and `position` leave to read. -/
abbrev WireReader := Reader UInt8 DecodeError

namespace WireReader

/-! ## Reading methods -/

def remaining : WireReader ℕ := do return (← get).length

/-- `read_bytes`, and `read_array` of the same length. -/
def readBytes (length : ℕ) (context : String) : WireReader Bytes := do
  let remaining ← remaining
  if remaining < length then throw (.truncated context length remaining)
  let bytes ← get
  set (bytes.drop length)
  return bytes.take length

def u16FromLeBytes (bytes : Bytes) : UInt16 := UInt16.ofNat (leNat bytes)

def u32FromLeBytes (bytes : Bytes) : UInt32 := UInt32.ofNat (leNat bytes)

def u64FromLeBytes (bytes : Bytes) : UInt64 := UInt64.ofNat (leNat bytes)

def readU16 (context : String) : WireReader UInt16 := do
  let bytes ← readBytes 2 context
  return u16FromLeBytes bytes

def readU32 (context : String) : WireReader UInt32 := do
  let bytes ← readBytes 4 context
  return u32FromLeBytes bytes

def readI32 (context : String) : WireReader Int32 := do
  let bytes ← readBytes 4 context
  return (u32FromLeBytes bytes).toInt32

def readU64 (context : String) : WireReader UInt64 := do
  let bytes ← readBytes 8 context
  return u64FromLeBytes bytes

def readByte (context : String) : WireReader UInt8 := do
  let bytes ← readBytes 1 context
  return bytes.headD 0

/-- The value behind the first byte must not fit a shorter encoding. -/
def checkMinimum (context : String) (minimum value : UInt64) : WireReader UInt64 :=
  if value < minimum then throw (.nonCanonicalCompactSize context value) else return value

/-- What follows the first byte of a CompactSize integer. -/
def readCompactTail (context : String) (first : UInt8) : WireReader UInt64 :=
  if first ≤ 0xfc then return first.toUInt64
  else if first = 0xfd then do
    let value ← readU16 context
    checkMinimum context 0xfd value.toUInt64
  else if first = 0xfe then do
    let value ← readU32 context
    checkMinimum context 0x10000 value.toUInt64
  else do
    let value ← readU64 context
    checkMinimum context 0x100000000 value

def readCompactSize (context : String) : WireReader UInt64 := do
  let first ← readByte context
  readCompactTail context first

/-- A `u64` always fits a `usize`. -/
def readLimitedLen (context : String) (limit : ℕ) : WireReader ℕ := do
  let value ← readCompactSize context
  if limit < value.toNat then throw (.limitExceeded context value limit)
  else return value.toNat

def finish (context : String) : WireReader Unit := do
  let remaining ← remaining
  if remaining ≠ 0 then throw (.trailingBytes context remaining)

/-- Bytes copied into a hash. -/
def toHash256 (bytes : Bytes) : Hash256 := ⟨bytes.takeD 32 0, List.takeD_length _ _ _⟩

def readHash (context : String) : WireReader Hash256 := do
  let bytes ← readBytes 32 context
  return toHash256 bytes

/-- The body of `deserialize`: a value that takes up all the bytes, no more than `limit` of them. -/
def decodeWhole {α : Type} (read : WireReader α) (sizeContext context : String) (limit : ℕ)
    (bytes : Bytes) : Except DecodeError α :=
  if limit < bytes.length then
    .error (.limitExceeded sizeContext (UInt64.ofNat bytes.length) limit)
  else do
    let (value, rest) ← read.run bytes
    let _ ← (finish context).run rest
    return value

/-! ## Fixed-width fields -/

variable {context : String}

theorem readBytes_run (length : ℕ) (input : Bytes) :
    (readBytes length context).run input =
      if input.length < length then .error (.truncated context length input.length)
      else .ok (input.take length, input.drop length) := by
  by_cases hshort : input.length < length
  · simp [readBytes, remaining, hshort]
    rfl
  · simp [readBytes, remaining, hshort]
    rfl

/-- A field of raw bytes. -/
theorem reads_bytes (length : ℕ) :
    Reads (fun bytes : Bytes ↦ bytes.length = length) id (readBytes length context) where
  complete bytes rest hlength := by
    rw [readBytes_run, if_neg (by simp [hlength])]
    subst hlength
    simp
  sound input bytes rest hread := by
    rw [readBytes_run] at hread
    split at hread
    · cases hread
    · rename_i hlong
      obtain ⟨rfl, rfl⟩ := Prod.mk.inj (Except.ok.inj hread)
      refine ⟨?_, (List.take_append_drop length input).symm⟩
      rw [List.length_take]
      omega

/-- A field of fixed width with a decoder that inverts its encoder. -/
theorem reads_fixed {α : Type} {encode : α → Bytes} {decode : Bytes → α} {width : ℕ}
    (hwidth : ∀ a, (encode a).length = width) (hdecode : ∀ a, decode (encode a) = a)
    (hencode : ∀ bytes, bytes.length = width → encode (decode bytes) = bytes) :
    Reads (fun _ ↦ True) encode
      (do let bytes ← readBytes width context
          return decode bytes : WireReader α) := by
  have hread : Reads (fun _ ↦ True) (fun a ↦ id (encode a) ++ [])
      (do let bytes ← readBytes width context
          return decode bytes : WireReader α) := by
    apply (reads_bytes width).bind encode fun a _ ↦ hwidth a
    intro bytes hbytes
    apply Reads.pure
    intro a
    constructor
    · rintro ⟨-, rfl⟩
      exact (hdecode a).symm
    · rintro rfl
      exact ⟨trivial, hencode bytes hbytes⟩
  exact hread.congr (fun _ ↦ Iff.rfl) fun a _ ↦ (List.append_nil (encode a)).symm

theorem leNat_u16ToLeBytes (x : UInt16) : leNat (u16ToLeBytes x) = x.toNat := by
  have hx := x.toNat_lt
  simp only [u16ToLeBytes, leNat_cons, leNat_nil, UInt16.toNat_toUInt8, UInt16.toNat_shiftRight,
    Nat.shiftRight_eq_div_pow, UInt16.reduceToNat, Nat.reduceMod]
  omega

theorem leNat_u32ToLeBytes (x : UInt32) : leNat (u32ToLeBytes x) = x.toNat := by
  have hx := x.toNat_lt
  simp only [u32ToLeBytes, leNat_cons, leNat_nil, UInt32.toNat_toUInt8, UInt32.toNat_shiftRight,
    Nat.shiftRight_eq_div_pow, UInt32.reduceToNat, Nat.reduceMod]
  omega

theorem leNat_u64ToLeBytes (x : UInt64) : leNat (u64ToLeBytes x) = x.toNat := by
  have hx := x.toNat_lt
  simp only [u64ToLeBytes, leNat_cons, leNat_nil, UInt64.toNat_toUInt8, UInt64.toNat_shiftRight,
    Nat.shiftRight_eq_div_pow, UInt64.reduceToNat, Nat.reduceMod]
  omega

theorem reads_u16 : Reads (fun _ ↦ True) u16ToLeBytes (readU16 context) := by
  refine reads_fixed (fun _ ↦ rfl) (fun x ↦ ?_) fun bytes hbytes ↦ leNat_injective hbytes.symm ?_
  · rw [u16FromLeBytes, leNat_u16ToLeBytes, UInt16.ofNat_toNat]
  · have hlt := leNat_lt bytes
    rw [hbytes] at hlt
    rw [leNat_u16ToLeBytes, u16FromLeBytes, UInt16.toNat_ofNat_of_lt' hlt]

theorem u32FromLeBytes_toLeBytes (x : UInt32) : u32FromLeBytes (u32ToLeBytes x) = x := by
  rw [u32FromLeBytes, leNat_u32ToLeBytes, UInt32.ofNat_toNat]

theorem u32ToLeBytes_fromLeBytes {bytes : Bytes} (hbytes : bytes.length = 4) :
    u32ToLeBytes (u32FromLeBytes bytes) = bytes := by
  have hlt := leNat_lt bytes
  have hlength : (u32ToLeBytes (u32FromLeBytes bytes)).length = bytes.length := hbytes.symm
  rw [hbytes] at hlt
  apply leNat_injective hlength
  rw [leNat_u32ToLeBytes, u32FromLeBytes, UInt32.toNat_ofNat_of_lt' hlt]

theorem reads_u32 : Reads (fun _ ↦ True) u32ToLeBytes (readU32 context) :=
  reads_fixed (fun _ ↦ rfl) u32FromLeBytes_toLeBytes fun _ ↦ u32ToLeBytes_fromLeBytes

theorem reads_i32 : Reads (fun _ ↦ True) i32ToLeBytes (readI32 context) := by
  refine reads_fixed (fun _ ↦ rfl) (fun x ↦ ?_) fun bytes hbytes ↦ ?_
  · rw [i32ToLeBytes, u32FromLeBytes_toLeBytes, Int32.toInt32_toUInt32]
  · rw [i32ToLeBytes, UInt32.toUInt32_toInt32, u32ToLeBytes_fromLeBytes hbytes]

theorem reads_u64 : Reads (fun _ ↦ True) u64ToLeBytes (readU64 context) := by
  refine reads_fixed (fun _ ↦ rfl) (fun x ↦ ?_) fun bytes hbytes ↦ leNat_injective hbytes.symm ?_
  · rw [u64FromLeBytes, leNat_u64ToLeBytes, UInt64.ofNat_toNat]
  · have hlt := leNat_lt bytes
    rw [hbytes] at hlt
    rw [leNat_u64ToLeBytes, u64FromLeBytes, UInt64.toNat_ofNat_of_lt' hlt]

theorem reads_byte : Reads (fun _ ↦ True) (fun byte ↦ [byte]) (readByte context) := by
  refine reads_fixed (fun _ ↦ rfl) (fun _ ↦ rfl) fun bytes hbytes ↦ ?_
  obtain ⟨byte, rfl⟩ := List.length_eq_one_iff.mp hbytes
  rfl

theorem reads_hash : Reads (fun _ ↦ True) List.Vector.toList (readHash context) := by
  refine reads_fixed (fun hash ↦ hash.toList_length) (fun hash ↦ ?_) fun bytes hbytes ↦ ?_
  · apply List.Vector.toList_injective
    exact List.takeD_eq_take _ (hash.toList_length.ge) |>.trans (by
      rw [List.take_of_length_le hash.toList_length.le])
  · exact (List.takeD_eq_take _ hbytes.ge).trans (List.take_of_length_le hbytes.le)

/-! ## CompactSize integers -/

/-- The first byte of the encoding. -/
def compactFirst (value : UInt64) : UInt8 :=
  if value ≤ 0xfc then value.toUInt8
  else if value ≤ 0xffff then 0xfd
  else if value ≤ 0xffffffff then 0xfe
  else 0xff

/-- The bytes behind it. -/
def compactTail (value : UInt64) : Bytes :=
  if value ≤ 0xfc then []
  else if value ≤ 0xffff then u16ToLeBytes value.toUInt16
  else if value ≤ 0xffffffff then u32ToLeBytes value.toUInt32
  else u64ToLeBytes value

theorem writeCompactSize_eq (value : UInt64) :
    writeCompactSize value = [compactFirst value] ++ compactTail value := by
  unfold writeCompactSize compactFirst compactTail
  split
  · rfl
  · split
    · rfl
    · split <;> rfl

theorem length_writeCompactSize (value : UInt64) :
    (writeCompactSize value).length = compactSizeEncodedLen value := by
  unfold writeCompactSize compactSizeEncodedLen
  split
  · rfl
  · split
    · rfl
    · split <;> rfl

theorem reads_checkMinimum {valid : UInt64 → Prop} {minimum value : UInt64}
    (h : ∀ x, valid x ↔ x = value ∧ minimum ≤ value) :
    Reads valid (fun _ ↦ []) (checkMinimum context minimum value) := by
  unfold checkMinimum
  split
  · rename_i hless
    apply Reads.throw
    intro x hx
    exact absurd ((h x).mp hx).2 (UInt64.not_le.mpr hless)
  · rename_i hless
    apply Reads.pure
    intro x
    rw [h x]
    exact and_iff_left (UInt64.not_lt.mp hless)

theorem compactFirst_of_small {value : UInt64} {first : UInt8} (hfirst : first ≤ 0xfc) :
    compactFirst value = first ↔ value = first.toUInt64 := by
  rw [UInt8.le_iff_toNat_le] at hfirst
  have hlimit : (0xfc : UInt8).toNat = 252 := rfl
  unfold compactFirst
  simp only [UInt64.le_iff_toNat_le, UInt64.reduceToNat]
  split_ifs <;>
    simp only [← UInt8.toNat_inj, ← UInt64.toNat_inj, UInt64.toNat_toUInt8, UInt8.toNat_toUInt64,
      UInt8.reduceToNat] <;> omega

theorem compactFirst_eq_fd {value : UInt64} :
    compactFirst value = 0xfd ↔ 0xfd ≤ value ∧ value ≤ 0xffff := by
  unfold compactFirst
  simp only [UInt64.le_iff_toNat_le, UInt64.reduceToNat]
  split_ifs <;>
    simp only [← UInt8.toNat_inj, UInt64.toNat_toUInt8, UInt8.reduceToNat, true_iff] <;> omega

theorem compactFirst_eq_fe {value : UInt64} :
    compactFirst value = 0xfe ↔ 0x10000 ≤ value ∧ value ≤ 0xffffffff := by
  unfold compactFirst
  simp only [UInt64.le_iff_toNat_le, UInt64.reduceToNat]
  split_ifs <;>
    simp only [← UInt8.toNat_inj, UInt64.toNat_toUInt8, UInt8.reduceToNat, true_iff] <;> omega

theorem compactFirst_eq_ff {value : UInt64} : compactFirst value = 0xff ↔ 0x100000000 ≤ value := by
  unfold compactFirst
  simp only [UInt64.le_iff_toNat_le, UInt64.reduceToNat]
  split_ifs <;>
    simp only [← UInt8.toNat_inj, UInt64.toNat_toUInt8, UInt8.reduceToNat, true_iff] <;> omega

/-- One of the wider encodings: a field that holds the value, checked against the minimum. -/
theorem reads_wide {α : Type} {encode : α → Bytes} {read : WireReader α}
    (narrow : UInt64 → α) (widen : α → UInt64) {minimum : UInt64} {valid : UInt64 → Prop}
    (hread : Reads (fun _ ↦ True) encode read) (hnarrow : ∀ a, narrow (widen a) = a)
    (hvalid : ∀ x, valid x ↔ minimum ≤ x ∧ widen (narrow x) = x)
    (htail : ∀ x, valid x → compactTail x = encode (narrow x)) :
    Reads valid compactTail (do
      let value ← read
      checkMinimum context minimum (widen value)) := by
  have hwide : Reads valid (fun x ↦ encode (narrow x) ++ []) (do
      let value ← read
      checkMinimum context minimum (widen value)) := by
    apply hread.bind narrow fun _ _ ↦ trivial
    intro a _
    apply reads_checkMinimum
    intro x
    rw [hvalid]
    constructor
    · rintro ⟨⟨hle, hx⟩, rfl⟩
      exact ⟨hx.symm, hx.symm ▸ hle⟩
    · rintro ⟨rfl, hle⟩
      rw [hnarrow]
      exact ⟨⟨hle, rfl⟩, rfl⟩
  exact hwide.congr (fun _ ↦ Iff.rfl) fun x hx ↦
    (htail x hx).trans (List.append_nil _).symm

theorem toUInt16_toUInt64_eq_iff {value : UInt64} :
    value.toUInt16.toUInt64 = value ↔ value ≤ 0xffff := by
  simp only [← UInt64.toNat_inj, UInt16.toNat_toUInt64, UInt64.toNat_toUInt16,
    UInt64.le_iff_toNat_le, UInt64.reduceToNat]
  omega

theorem toUInt32_toUInt64_eq_iff {value : UInt64} :
    value.toUInt32.toUInt64 = value ↔ value ≤ 0xffffffff := by
  simp only [← UInt64.toNat_inj, UInt32.toNat_toUInt64, UInt64.toNat_toUInt32,
    UInt64.le_iff_toNat_le, UInt64.reduceToNat]
  omega

theorem reads_compactTail (first : UInt8) :
    Reads (fun value ↦ True ∧ compactFirst value = first) compactTail
      (readCompactTail context first) := by
  simp only [true_and]
  unfold readCompactTail
  split
  · rename_i hsmall
    refine (Reads.pure fun value : UInt64 ↦ Iff.rfl).congr (fun value ↦ ?_) ?_
    · exact compactFirst_of_small hsmall
    · intro value hfirst
      obtain rfl := (compactFirst_of_small hsmall).mp hfirst
      apply if_pos
      simp only [UInt64.le_iff_toNat_le, UInt8.le_iff_toNat_le, UInt8.toNat_toUInt64,
        UInt64.reduceToNat, UInt8.reduceToNat] at hsmall ⊢
      exact hsmall
  · rename_i hlarge
    split
    · rename_i hfd
      subst hfd
      apply reads_wide UInt64.toUInt16 UInt16.toUInt64 reads_u16 fun _ ↦ by simp
      · intro value
        rw [compactFirst_eq_fd, toUInt16_toUInt64_eq_iff]
      · intro value hvalue
        obtain ⟨hlow, hhigh⟩ := compactFirst_eq_fd.mp hvalue
        have hnot : ¬ value ≤ 0xfc := UInt64.not_le.mpr (UInt64.lt_of_lt_of_le (by decide) hlow)
        rw [compactTail, if_neg hnot, if_pos hhigh]
    · rename_i hfd
      split
      · rename_i hfe
        subst hfe
        apply reads_wide UInt64.toUInt32 UInt32.toUInt64 reads_u32 fun _ ↦ by simp
        · intro value
          rw [compactFirst_eq_fe, toUInt32_toUInt64_eq_iff]
        · intro value hvalue
          obtain ⟨hlow, hhigh⟩ := compactFirst_eq_fe.mp hvalue
          have hnot : ∀ bound < (0x10000 : UInt64), ¬ value ≤ bound := fun bound hbound ↦
            UInt64.not_le.mpr (UInt64.lt_of_lt_of_le hbound hlow)
          rw [compactTail, if_neg (hnot _ (by decide)), if_neg (hnot _ (by decide)), if_pos hhigh]
      · rename_i hfe
        have hff : first = 0xff := by
          simp only [UInt8.le_iff_toNat_le, ← UInt8.toNat_inj, UInt8.reduceToNat]
            at hlarge hfd hfe ⊢
          have hlt := first.toNat_lt
          omega
        subst hff
        apply reads_wide id id reads_u64 fun _ ↦ rfl
        · intro value
          rw [compactFirst_eq_ff]
          exact (and_iff_left rfl).symm
        · intro value hvalue
          have hlow := compactFirst_eq_ff.mp hvalue
          have hnot : ∀ bound < (0x100000000 : UInt64), ¬ value ≤ bound := fun bound hbound ↦
            UInt64.not_le.mpr (UInt64.lt_of_lt_of_le hbound hlow)
          rw [compactTail, if_neg (hnot _ (by decide)), if_neg (hnot _ (by decide)),
            if_neg (hnot _ (by decide))]
          rfl

theorem reads_compactSize : Reads (fun _ ↦ True) writeCompactSize (readCompactSize context) := by
  have hread : Reads (fun _ ↦ True) (fun value ↦ [compactFirst value] ++ compactTail value)
      (readCompactSize context) :=
    reads_byte.bind compactFirst (fun _ _ ↦ trivial) fun first _ ↦ reads_compactTail first
  exact hread.congr (fun _ ↦ Iff.rfl) fun value _ ↦ writeCompactSize_eq value

/-- A length within its limit. -/
theorem reads_limitedLen {limit : ℕ} (hlimit : limit < 2 ^ 64) :
    Reads (fun length ↦ length ≤ limit) (fun length ↦ writeCompactSize (UInt64.ofNat length))
      (readLimitedLen context limit) := by
  have hread : Reads (fun length ↦ length ≤ limit)
      (fun length ↦ writeCompactSize (UInt64.ofNat length) ++ [])
      (readLimitedLen context limit) := by
    apply reads_compactSize.bind UInt64.ofNat fun _ _ ↦ trivial
    intro value _
    have hvalue : ∀ length, length ≤ limit →
        (UInt64.ofNat length = value ↔ length = value.toNat) := by
      intro length hlength
      rw [← UInt64.toNat_inj, UInt64.toNat_ofNat_of_lt' (hlength.trans_lt hlimit)]
    split
    · apply Reads.throw
      rintro length ⟨hlength, heq⟩
      have hlength' := (hvalue length hlength).mp heq
      omega
    · rename_i hfits
      apply Reads.pure
      intro length
      constructor
      · rintro ⟨hlength, heq⟩
        exact (hvalue length hlength).mp heq
      · rintro rfl
        exact ⟨not_lt.mp hfits, UInt64.ofNat_toNat⟩
  exact hread.congr (fun _ ↦ Iff.rfl) fun _ _ ↦ (List.append_nil _).symm

/-! ## Whole values -/

theorem finish_run {context : String} {rest rest' : Bytes} :
    (finish context).run rest = .ok ((), rest') ↔ rest = [] ∧ rest' = [] := by
  cases rest with
  | nil =>
      simp only [true_and]
      constructor
      · exact fun h ↦ (Prod.mk.inj (Except.ok.inj h)).2.symm
      · rintro rfl
        rfl
  | cons byte rest =>
      constructor
      · intro h
        cases h
      · rintro ⟨h, -⟩
        cases h

/-- A whole value is decoded when its reader uses up the bytes. -/
theorem decode_whole_iff {α : Type} {read : WireReader α} {context : String} {bytes : Bytes}
    {value : α} :
    (do let (value, rest) ← read.run bytes
        let _ ← (finish context).run rest
        return value) = Except.ok value ↔ read.run bytes = .ok (value, []) := by
  cases hread : read.run bytes with
  | error e =>
      constructor <;>
        · intro h
          cases h
  | ok found =>
      obtain ⟨first, rest⟩ := found
      change (do let _ ← (finish context).run rest
                 return first) = Except.ok value ↔ _
      cases hfinish : (finish context).run rest with
      | error e =>
          constructor
          · intro h
            cases h
          · intro h
            obtain ⟨-, hrest⟩ := Prod.mk.inj (Except.ok.inj h)
            rw [finish_run.mpr ⟨hrest, rfl⟩] at hfinish
            cases hfinish
      | ok done =>
          obtain ⟨rfl, -⟩ := finish_run.mp hfinish
          constructor
          · intro h
            rw [← Except.ok.inj h]
          · intro h
            rw [← (Prod.mk.inj (Except.ok.inj h)).1]
            rfl

/-- What is decoded as a whole is a format with the size as a further limit. -/
theorem decodeWhole_format {α : Type} {within : α → Prop} {write : α → Bytes} {size : α → ℕ}
    {read : WireReader α} {sizeContext : String} {limit : ℕ} (h : Reads within write read)
    (hsize : ∀ a, size a = (write a).length) :
    Format (fun a ↦ size a ≤ limit ∧ within a) write size
      (decodeWhole read sizeContext context limit) := by
  refine h.format hsize (fun input a ↦ ?_) fun a ha ↦ ha.2
  unfold decodeWhole
  split
  · rename_i hlong
    constructor
    · intro haccept
      cases haccept
    · rintro ⟨⟨hle, -⟩, hread⟩
      obtain ⟨-, rfl⟩ := h.sound _ _ _ hread
      rw [List.append_nil, ← hsize a] at hlong
      exact absurd hle (not_le.mpr hlong)
  · rename_i hfits
    rw [decode_whole_iff]
    constructor
    · intro hread
      obtain ⟨hwithin, rfl⟩ := h.sound _ _ _ hread
      rw [List.append_nil, ← hsize a] at hfits
      exact ⟨⟨not_lt.mp hfits, hwithin⟩, hread⟩
    · exact fun haccept ↦ haccept.2

end WireReader

end Bitrst
