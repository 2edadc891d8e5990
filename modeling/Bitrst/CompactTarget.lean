import Mathlib.Data.Nat.Bitwise
import Bitrst.BlockWork
import Bitrst.Support.CompactFloat

/-!
# Compact targets

`Target::from_bits` and `Target::to_bits` are the decoder and the encoder of a
float in base 256 with three digits, the top bit of the mantissa kept clear.
The encoder rounds a threshold down to the nearest one that can be decoded, up
to the thresholds with the top bit set, which need an exponent that the decoder rejects.
-/

namespace Bitrst

open Support

/-- The float behind compact bits. -/
def compactFormat : FloatFormat where
  base := 256
  digits := 3
  bound := 2 ^ 23
  one_lt_base := by decide
  bound_pos := by decide
  base_dvd_bound := by decide

/-- The compact encoding of a number, the exponent above the 24 bits of the mantissa. -/
def compactOf (n : ℕ) : ℕ := 2 ^ 24 * compactFormat.exponentOf n + compactFormat.mantissaOf n

/-! ## Bytes -/

theorem leNat_replicate_zero (n : ℕ) : leNat (List.replicate n 0) = 0 := by
  induction n with
  | zero => rfl
  | succ n ih => rw [List.replicate_succ, leNat_cons, ih, UInt8.toNat_zero]

theorem leNat_append (low high : Bytes) :
    leNat (low ++ high) = leNat low + 256 ^ low.length * leNat high := by
  induction low with
  | nil => simp
  | cons byte low ih =>
      rw [List.cons_append, leNat_cons, leNat_cons, ih, List.length_cons, pow_succ']
      ring

/-- Spliced bytes count from their offset on. -/
theorem leNat_spliceZeroed {offset : ℕ} {bytes : Bytes} (hfits : offset + bytes.length ≤ 32) :
    leNat (spliceZeroed offset bytes).toList = 256 ^ offset * leNat bytes := by
  have hlist : (spliceZeroed offset bytes).toList =
      List.replicate offset 0 ++ (bytes ++ List.replicate (32 - offset - bytes.length) 0) := by
    change (List.replicate offset (0 : UInt8) ++ bytes ++ List.replicate 32 0).take 32 = _
    rw [List.append_assoc, List.take_append, List.take_of_length_le (by simp; omega),
      List.length_replicate, List.take_append, List.take_of_length_le (by omega),
      List.take_replicate]
    congr 3
    omega
  rw [hlist, leNat_append, leNat_append, leNat_replicate_zero, leNat_replicate_zero,
    List.length_replicate]
  ring

/-- The lower three bytes of a word. -/
theorem leNat_take_three {x : UInt32} (hx : x.toNat < 2 ^ 24) :
    leNat ((u32ToLeBytes x).take 3) = x.toNat := by
  simp only [u32ToLeBytes, List.take_succ_cons, List.take_zero, leNat_cons, leNat_nil,
    UInt32.toNat_toUInt8, UInt32.toNat_shiftRight, UInt32.reduceToNat, Nat.reduceMod,
    Nat.shiftRight_eq_div_pow]
  omega

/-- The `count` lowest bytes cleared. -/
def clearLow : ℕ → Bytes → Bytes
  | 0, bytes => bytes
  | _ + 1, [] => []
  | count + 1, _ :: rest => 0 :: clearLow count rest

theorem length_clearLow (count : ℕ) (bytes : Bytes) :
    (clearLow count bytes).length = bytes.length := by
  induction bytes generalizing count with
  | nil => cases count <;> rfl
  | cons byte rest ih =>
      cases count with
      | zero => rfl
      | succ count => rw [clearLow, List.length_cons, List.length_cons, ih]

theorem leNat_clearLow (count : ℕ) (bytes : Bytes) :
    leNat (clearLow count bytes) = leNat bytes / 256 ^ count * 256 ^ count := by
  induction bytes generalizing count with
  | nil => cases count <;> simp [clearLow]
  | cons byte rest ih =>
      cases count with
      | zero => simp [clearLow]
      | succ count =>
          have hbyte := byte.toNat_lt
          have hdrop : (byte.toNat + 256 * leNat rest) / 256 = leNat rest := by omega
          rw [clearLow, leNat_cons, leNat_cons, ih, UInt8.toNat_zero, pow_succ',
            ← Nat.div_div_eq_div_mul, hdrop]
          ring

namespace Target

variable {target : Target} {bits : UInt32}

/-- The threshold as a number. -/
def value (target : Target) : ℕ := leNat target.threshold.toList

theorem value_injective {left right : Target} (h : left.value = right.value) : left = right := by
  cases left with
  | mk l =>
    cases right with
    | mk r =>
      have hlist : l.toList = r.toList := leNat_injective (by simp) h
      exact congrArg mk (List.Vector.toList_injective hlist)

theorem value_pos_iff : 0 < target.value ↔ target.threshold ≠ zeroHash := by
  rw [ne_eq, eq_zeroHash_iff, Nat.pos_iff_ne_zero]
  rfl

/-! ## Decoding -/

/-- Compact bits that the decoder accepts: the mantissa is positive, without
the sign bit, and its bytes lie within the threshold. -/
def Decodable (bits : UInt32) : Prop :=
  0 < bits.toNat % 2 ^ 24 ∧ bits.toNat % 2 ^ 24 < 2 ^ 23 ∧ bits.toNat / 2 ^ 24 ≤ 32

theorem toNat_exponent (bits : UInt32) : (bits >>> 24).toNat = bits.toNat / 2 ^ 24 := by
  rw [UInt32.toNat_shiftRight]
  simp [Nat.shiftRight_eq_div_pow]

theorem toNat_mantissa (bits : UInt32) : (bits &&& 0x007fffff).toNat = bits.toNat % 2 ^ 23 := by
  rw [UInt32.toNat_and]
  exact Nat.and_two_pow_sub_one_eq_mod bits.toNat 23

theorem sign_clear_iff (bits : UInt32) :
    bits &&& 0x00800000 = 0 ↔ bits.toNat % 2 ^ 24 < 2 ^ 23 := by
  have hbit : bits.toNat.testBit 23 = decide (bits.toNat / 2 ^ 23 % 2 = 1) :=
    Nat.testBit_eq_decide_div_mod_eq
  have hand : (bits &&& 0x00800000).toNat = (bits.toNat.testBit 23).toNat * 2 ^ 23 := by
    rw [UInt32.toNat_and]
    exact Nat.and_two_pow bits.toNat 23
  rw [← UInt32.toNat_inj, hand, hbit]
  by_cases hset : bits.toNat / 2 ^ 23 % 2 = 1
  · simp only [hset, decide_true, Bool.toNat_true]
    have hzero : (0 : UInt32).toNat = 0 := rfl
    omega
  · simp only [hset, decide_false, Bool.toNat_false]
    have hzero : (0 : UInt32).toNat = 0 := rfl
    omega

/-- The decoder returns the number that the float denotes. -/
theorem fromBits_of_decodable (h : Decodable bits) : ∃ target, fromBits bits = some target ∧
    target.value = compactFormat.decode (bits.toNat / 2 ^ 24) (bits.toNat % 2 ^ 24) := by
  obtain ⟨hpos, hsign, hexponent⟩ := h
  have hmantissa : (bits &&& 0x007fffff).toNat = bits.toNat % 2 ^ 24 := by
    rw [toNat_mantissa]
    omega
  have hne : ¬ (bits &&& 0x007fffff = 0 ∨ bits &&& 0x00800000 ≠ 0) := by
    rw [not_or, not_not]
    refine ⟨fun hzero ↦ ?_, (sign_clear_iff bits).mpr hsign⟩
    rw [hzero, UInt32.toNat_zero] at hmantissa
    omega
  unfold fromBits
  simp only
  rw [if_neg hne, toNat_exponent]
  split
  · -- The mantissa loses the bytes below the least place.
    rename_i hsmall
    have hplaces : (UInt32.ofNat (8 * (3 - bits.toNat / 2 ^ 24))).toNat % 32 =
        8 * (3 - bits.toNat / 2 ^ 24) := by
      rw [UInt32.toNat_ofNat_of_lt' (Nat.lt_of_le_of_lt (by omega : _ ≤ 24) (by decide))]
      omega
    have hshift : ((bits &&& 0x007fffff) >>> UInt32.ofNat (8 * (3 - bits.toNat / 2 ^ 24))).toNat =
        bits.toNat % 2 ^ 24 / 256 ^ (3 - bits.toNat / 2 ^ 24) := by
      rw [UInt32.toNat_shiftRight, hmantissa, hplaces, Nat.shiftRight_eq_div_pow, pow_mul,
        show 2 ^ 8 = 256 from rfl]
    have hle := Nat.div_le_self (bits.toNat % 2 ^ 24) (256 ^ (3 - bits.toNat / 2 ^ 24))
    refine ⟨_, rfl, ?_⟩
    rw [value, leNat_spliceZeroed (by rw [List.length_take]; omega),
      leNat_take_three (by rw [hshift]; omega), hshift, pow_zero, Nat.one_mul]
    have hsplit : 256 ^ 3 = 256 ^ (3 - bits.toNat / 2 ^ 24) * 256 ^ (bits.toNat / 2 ^ 24) := by
      rw [← pow_add, Nat.sub_add_cancel hsmall]
    change _ = bits.toNat % 2 ^ 24 * 256 ^ (bits.toNat / 2 ^ 24) / 256 ^ 3
    rw [hsplit, Nat.mul_div_mul_right _ _ (Nat.pow_pos (by decide))]
  · rename_i hlarge
    rw [if_neg (by omega)]
    refine ⟨_, rfl, ?_⟩
    rw [value, leNat_spliceZeroed (by rw [List.length_take]; omega),
      leNat_take_three (by rw [hmantissa]; omega), hmantissa]
    have hsplit : bits.toNat % 2 ^ 24 * 256 ^ (bits.toNat / 2 ^ 24) =
        256 ^ (bits.toNat / 2 ^ 24 - 3) * (bits.toNat % 2 ^ 24) * 256 ^ 3 := by
      rw [Nat.mul_comm, Nat.mul_right_comm, ← pow_add, Nat.sub_add_cancel (by omega)]
    change _ = bits.toNat % 2 ^ 24 * 256 ^ (bits.toNat / 2 ^ 24) / 256 ^ 3
    rw [hsplit, Nat.mul_div_cancel _ (Nat.pow_pos (by decide))]

theorem fromBits_of_not_decodable (h : ¬ Decodable bits) : fromBits bits = none := by
  unfold fromBits
  simp only
  split
  · rfl
  · rename_i hfields
    rw [not_or, not_not, sign_clear_iff] at hfields
    obtain ⟨hne, hsign⟩ := hfields
    have hmantissa := toNat_mantissa bits
    have hpos : (bits &&& 0x007fffff).toNat ≠ 0 := fun hzero ↦
      hne (UInt32.toNat_inj.mp hzero)
    have hexponent : ¬ bits.toNat / 2 ^ 24 ≤ 32 := fun hle ↦ h ⟨by omega, hsign, hle⟩
    rw [toNat_exponent, if_neg (by omega), if_pos (by omega)]

/-- What compact bits decode to. -/
theorem fromBits_eq_some_iff : fromBits bits = some target ↔ Decodable bits ∧
    target.value = compactFormat.decode (bits.toNat / 2 ^ 24) (bits.toNat % 2 ^ 24) := by
  constructor
  · intro hdecoded
    by_cases h : Decodable bits
    · obtain ⟨target', hdecoded', hvalue⟩ := fromBits_of_decodable h
      rw [hdecoded] at hdecoded'
      obtain rfl := Option.some.inj hdecoded'
      exact ⟨h, hvalue⟩
    · rw [fromBits_of_not_decodable h] at hdecoded
      cases hdecoded
  · rintro ⟨h, hvalue⟩
    obtain ⟨target', hdecoded, hvalue'⟩ := fromBits_of_decodable h
    rw [hdecoded, value_injective (hvalue'.trans hvalue.symm)]

/-- Decoded targets are numbers of the format, with the top bit clear. -/
theorem represents_of_fromBits (h : fromBits bits = some target) :
    compactFormat.Represents target.value ∧ target.value < 2 ^ 255 := by
  obtain ⟨⟨-, hsign, hexponent⟩, hvalue⟩ := fromBits_eq_some_iff.mp h
  refine ⟨⟨_, _, hsign, hvalue⟩, ?_⟩
  rw [hvalue]
  apply (Nat.div_lt_iff_lt_mul (Nat.pow_pos (by decide))).mpr
  have hpow : 256 ^ (bits.toNat / 2 ^ 24) ≤ 256 ^ 32 := Nat.pow_le_pow_right (by decide) hexponent
  calc bits.toNat % 2 ^ 24 * 256 ^ (bits.toNat / 2 ^ 24)
      < 2 ^ 23 * 256 ^ (bits.toNat / 2 ^ 24) :=
        Nat.mul_lt_mul_of_pos_right hsign (Nat.pow_pos (by decide))
    _ ≤ 2 ^ 23 * 256 ^ 32 := Nat.mul_le_mul_left _ hpow
    _ = 2 ^ 255 * 256 ^ 3 := by norm_num

/-! ## Encoding -/

theorem significantSizeLoop_spec (bytes : Bytes) (count : ℕ) :
    (significantSizeLoop bytes count = none ∧ leNat bytes % 256 ^ count = 0) ∨
      ∃ size, significantSizeLoop bytes count = some (size + 1) ∧ size < count ∧
        256 ^ size ≤ leNat bytes % 256 ^ count ∧ leNat bytes % 256 ^ count < 256 ^ (size + 1) := by
  induction count with
  | zero => exact Or.inl ⟨rfl, Nat.mod_one _⟩
  | succ count ih =>
      have hdigit := leNat_div_mod bytes count
      have hsplit : leNat bytes % 256 ^ (count + 1) =
          leNat bytes % 256 ^ count + 256 ^ count * (bytes.getD count 0).toNat := by
        rw [pow_succ, Nat.mod_mul, hdigit]
      unfold significantSizeLoop
      by_cases hzero : bytes.getD count 0 = 0
      · rw [if_neg (not_not.mpr hzero)]
        rw [hsplit, hzero, UInt8.toNat_zero, Nat.mul_zero, Nat.add_zero]
        rcases ih with hnone | ⟨size, hsome, hlt, hbounds⟩
        · exact Or.inl hnone
        · exact Or.inr ⟨size, hsome, Nat.lt_succ_of_lt hlt, hbounds⟩
      · rw [if_pos hzero]
        have hpos : 0 < (bytes.getD count 0).toNat :=
          Nat.pos_of_ne_zero fun h ↦ hzero (UInt8.toNat_inj.mp h)
        refine Or.inr ⟨count, rfl, Nat.lt_succ_self _, ?_, Nat.mod_lt _ (Nat.pow_pos (by decide))⟩
        rw [hsplit]
        exact Nat.le_add_left_of_le (Nat.le_mul_of_pos_right _ hpos)

/-- The number of significant bytes of a positive threshold. -/
theorem significantSize_eq_some (hpos : 0 < target.value) :
    ∃ size, significantSize target.threshold = some (size + 1) ∧ size < 32 ∧
      256 ^ size ≤ target.value ∧ target.value < 256 ^ (size + 1) := by
  have hmod : leNat target.threshold.toList % 256 ^ 32 = target.value :=
    Nat.mod_eq_of_lt (leNat_lt_pow _)
  rcases significantSizeLoop_spec target.threshold.toList 32 with ⟨-, hzero⟩ | hsome
  · rw [hmod] at hzero
    exact absurd hzero hpos.ne'
  · rwa [hmod] at hsome

/-- The bytes put together in a word, from the lowest up. -/
theorem toNat_foldl_bytes (bytes : Bytes) {size : ℕ} (hsize : size ≤ 8) :
    ((List.range size).foldl (fun (value : UInt64) index ↦
      value ||| ((bytes.getD index 0).toUInt64 <<< UInt64.ofNat (8 * index))) 0).toNat =
        leNat bytes % 256 ^ size := by
  induction size with
  | zero => exact (Nat.mod_one _).symm
  | succ size ih =>
      have hbyte := (bytes.getD size 0).toNat_lt
      have hplaces : (UInt64.ofNat (8 * size)).toNat % 64 = 8 * size := by
        rw [UInt64.toNat_ofNat_of_lt' (Nat.lt_of_le_of_lt (by omega : _ ≤ 64) (by decide))]
        omega
      have hwidth : (2 ^ 8) ^ (size + 1) ≤ 2 ^ 64 := by
        rw [← pow_mul]
        exact Nat.pow_le_pow_right (by decide) (by omega)
      have hfits : (bytes.getD size 0).toNat * (2 ^ 8) ^ size < 2 ^ 64 := by
        rw [pow_succ'] at hwidth
        exact Nat.lt_of_lt_of_le (Nat.mul_lt_mul_of_pos_right hbyte (Nat.pow_pos (by decide)))
          hwidth
      have hshift : ((bytes.getD size 0).toUInt64 <<< UInt64.ofNat (8 * size)).toNat =
          2 ^ (8 * size) * (bytes.getD size 0).toNat := by
        rw [UInt64.toNat_shiftLeft, hplaces, UInt8.toNat_toUInt64, Nat.shiftLeft_eq, pow_mul,
          Nat.mod_eq_of_lt hfits, Nat.mul_comm]
      have hlow : leNat bytes % 256 ^ size < 2 ^ (8 * size) := by
        rw [pow_mul]
        exact Nat.mod_lt _ (Nat.pow_pos (by decide))
      rw [List.range_succ, List.foldl_append, List.foldl_cons, List.foldl_nil, UInt64.toNat_or,
        ih (by omega), hshift, Nat.or_comm, ← Nat.two_pow_add_eq_or_of_lt hlow, pow_succ,
        Nat.mod_mul, leNat_div_mod, pow_mul, Nat.add_comm, show 2 ^ 8 = 256 from rfl]

/-- Three bytes put together in a word. -/
theorem toNat_threeBytes (x y z : UInt8) :
    (x.toUInt32 ||| (y.toUInt32 <<< 8) ||| (z.toUInt32 <<< 16)).toNat =
      x.toNat + 256 * y.toNat + 256 ^ 2 * z.toNat := by
  have hx := x.toNat_lt
  have hy := y.toNat_lt
  have hz := z.toNat_lt
  have hlow : x.toNat ||| 2 ^ 8 * y.toNat = 2 ^ 8 * y.toNat + x.toNat := by
    rw [Nat.or_comm, ← Nat.two_pow_add_eq_or_of_lt hx]
  have hhigh : (2 ^ 8 * y.toNat + x.toNat) ||| 2 ^ 16 * z.toNat =
      2 ^ 16 * z.toNat + (2 ^ 8 * y.toNat + x.toNat) := by
    rw [Nat.or_comm, ← Nat.two_pow_add_eq_or_of_lt (by omega)]
  have hmiddle : (y.toUInt32 <<< 8).toNat = 2 ^ 8 * y.toNat := by
    rw [UInt32.toNat_shiftLeft, UInt8.toNat_toUInt32, Nat.shiftLeft_eq]
    change y.toNat * 2 ^ 8 % 2 ^ 32 = _
    omega
  have htop : (z.toUInt32 <<< 16).toNat = 2 ^ 16 * z.toNat := by
    rw [UInt32.toNat_shiftLeft, UInt8.toNat_toUInt32, Nat.shiftLeft_eq]
    change z.toNat * 2 ^ 16 % 2 ^ 32 = _
    omega
  rw [UInt32.toNat_or, UInt32.toNat_or, UInt8.toNat_toUInt32, hmiddle, hlow, htop, hhigh]
  omega

/-- The leading three bytes of a number of `size` bytes. -/
def leading (n size : ℕ) : ℕ := n * 256 ^ 3 / 256 ^ size

theorem leading_of_le {n size : ℕ} (h : size ≤ 3) : leading n size = n * 256 ^ (3 - size) := by
  have hsplit : 256 ^ 3 = 256 ^ (3 - size) * 256 ^ size := by
    rw [← pow_add, Nat.sub_add_cancel h]
  rw [leading, hsplit, ← Nat.mul_assoc, Nat.mul_div_cancel _ (Nat.pow_pos (by decide))]

theorem leading_of_ge {n size : ℕ} (h : 3 ≤ size) : leading n size = n / 256 ^ (size - 3) := by
  have hsplit : 256 ^ size = 256 ^ (size - 3) * 256 ^ 3 := by
    rw [← pow_add, Nat.sub_add_cancel h]
  rw [leading, hsplit, Nat.mul_div_mul_right _ _ (Nat.pow_pos (by decide))]

theorem leading_lt {n size : ℕ} (h : n < 256 ^ size) : leading n size < 2 ^ 24 := by
  apply (Nat.div_lt_iff_lt_mul (Nat.pow_pos (by decide))).mpr
  rw [Nat.mul_comm]
  exact Nat.mul_lt_mul_of_pos_left h (by decide)

/-- The exponent is the number of bytes, and one more when the sign bit would be set. -/
theorem exponentOf_eq_size {n size : ℕ} (hlow : 256 ^ size ≤ n) (hhigh : n < 256 ^ (size + 1)) :
    compactFormat.exponentOf n = if leading n (size + 1) < 2 ^ 23 then size + 1 else size + 2 := by
  have hfits : ∀ exponent, compactFormat.Fits n exponent ↔ n * 256 ^ 3 < 2 ^ 23 * 256 ^ exponent :=
    fun _ ↦ Iff.rfl
  have hleading : leading n (size + 1) < 2 ^ 23 ↔ compactFormat.Fits n (size + 1) :=
    Nat.div_lt_iff_lt_mul (Nat.pow_pos (by decide))
  split
  · rename_i hlt
    refine FloatFormat.exponentOf_eq (hleading.mp hlt) fun smaller hsmaller ↦ ?_
    obtain rfl : size = smaller := by omega
    rw [hfits]
    omega
  · rename_i hge
    refine FloatFormat.exponentOf_eq ?_ fun smaller hsmaller ↦ ?_
    · have hpow : 256 ^ (size + 2) = 256 * 256 ^ (size + 1) := pow_succ' 256 (size + 1)
      rw [hfits]
      omega
    · obtain rfl : smaller = size + 1 := by omega
      rwa [← hleading]

/-- The words that `toBits` puts together. -/
theorem toNat_compact {size : ℕ} {mantissa : UInt32} (hsize : size < 256)
    (hmantissa : mantissa.toNat < 2 ^ 24) :
    ((UInt32.ofNat size <<< 24) ||| mantissa).toNat = 2 ^ 24 * size + mantissa.toNat := by
  have hshift : (UInt32.ofNat size <<< 24).toNat = 2 ^ 24 * size := by
    rw [UInt32.toNat_shiftLeft, UInt32.toNat_ofNat_of_lt' (hsize.trans (by decide)),
      Nat.shiftLeft_eq]
    change size * 2 ^ 24 % 2 ^ 32 = _
    omega
  rw [UInt32.toNat_or, hshift, Nat.two_pow_add_eq_or_of_lt hmantissa]

/-- A positive threshold is encoded as the float of its number. -/
theorem toBits_of_pos (hpos : 0 < target.value) :
    ∃ bits, target.toBits = some bits ∧ bits.toNat = compactOf target.value := by
  obtain ⟨size, hsome, hlt, hlow, hhigh⟩ := significantSize_eq_some hpos
  have hexponent := exponentOf_eq_size hlow hhigh
  have hmantissa : ∀ exponent, compactFormat.exponentOf target.value = exponent →
      compactFormat.mantissaOf target.value = leading target.value exponent := by
    rintro _ rfl
    rfl
  have hbound := leading_lt hhigh
  unfold toBits
  rw [hsome]
  simp only [Option.bind_eq_bind, Option.bind_some]
  generalize hword : (if size + 1 ≤ 3 then _ else _ : UInt32) = word
  have hvalue : word.toNat = leading target.value (size + 1) := by
    subst hword
    split
    · rename_i hsmall
      have hplaces : (UInt64.ofNat (8 * (3 - (size + 1)))).toNat % 64 = 8 * (3 - (size + 1)) := by
        rw [UInt64.toNat_ofNat_of_lt' (Nat.lt_of_le_of_lt (by omega : _ ≤ 24) (by decide))]
        omega
      rw [leading_of_le hsmall] at hbound ⊢
      rw [UInt64.toNat_toUInt32, UInt64.toNat_shiftLeft, toNat_foldl_bytes _ (by omega), hplaces,
        Nat.shiftLeft_eq, pow_mul, show 2 ^ 8 = 256 from rfl]
      change target.value % 256 ^ (size + 1) * _ % 2 ^ 64 % 2 ^ 32 = _
      rw [Nat.mod_eq_of_lt hhigh]
      omega
    · rename_i hlarge
      rw [leading_of_ge (by omega), toNat_threeBytes, ← leNat_div_mod, ← leNat_div_mod,
        ← leNat_div_mod]
      change target.value / 256 ^ (size + 1 - 3) % 256 +
        256 * (target.value / 256 ^ (size + 1 - 3 + 1) % 256) +
          256 ^ 2 * (target.value / 256 ^ (size + 1 - 3 + 2) % 256) = _
      have htop : target.value / 256 ^ (size + 1 - 3) < 256 ^ 3 := by
        apply (Nat.div_lt_iff_lt_mul (Nat.pow_pos (by decide))).mpr
        rw [← pow_add]
        exact Nat.lt_of_lt_of_le hhigh (Nat.pow_le_pow_right (by decide) (by omega))
      rw [pow_add, pow_add, ← Nat.div_div_eq_div_mul, ← Nat.div_div_eq_div_mul]
      generalize target.value / 256 ^ (size + 1 - 3) = lead at htop ⊢
      omega
  have hsign := sign_clear_iff word
  rw [hvalue, Nat.mod_eq_of_lt hbound] at hsign
  by_cases hclear : word &&& 0x00800000 = 0
  · have hsmall := hsign.mp hclear
    rw [if_pos hsmall] at hexponent
    have hle : ¬ (0x007fffff : UInt32) < word := by
      rw [UInt32.lt_iff_toNat_lt, hvalue]
      change ¬ 0x007fffff < _
      omega
    simp only [hclear, ne_eq, not_true_eq_false, if_false, hle]
    refine ⟨_, rfl, ?_⟩
    rw [toNat_compact (by omega) (by omega), hvalue, compactOf, hexponent, hmantissa _ hexponent]
  · have hlarge : ¬ leading target.value (size + 1) < 2 ^ 23 := fun h ↦ hclear (hsign.mpr h)
    rw [if_neg hlarge] at hexponent
    have hshift : (word >>> 8).toNat = leading target.value (size + 2) := by
      rw [UInt32.toNat_shiftRight, hvalue]
      change leading target.value (size + 1) >>> 8 = _
      rw [Nat.shiftRight_eq_div_pow, leading, leading, Nat.div_div_eq_div_mul,
        show 2 ^ 8 = 256 from rfl, ← pow_succ]
    have hshort : leading target.value (size + 2) < 2 ^ 16 := by
      rw [← hshift, UInt32.toNat_shiftRight, hvalue]
      change leading target.value (size + 1) >>> 8 < _
      rw [Nat.shiftRight_eq_div_pow]
      omega
    have hle : ¬ (0x007fffff : UInt32) < word >>> 8 := by
      rw [UInt32.lt_iff_toNat_lt, hshift]
      change ¬ 0x007fffff < _
      omega
    simp only [hclear, ne_eq, not_false_eq_true, if_true, hle, if_false]
    refine ⟨_, rfl, ?_⟩
    rw [toNat_compact (by omega) (by omega), hshift, compactOf, hexponent, hmantissa _ hexponent]

theorem toBits_of_zero (hzero : target.value = 0) : target.toBits = none := by
  rcases significantSizeLoop_spec target.threshold.toList 32 with ⟨hnone, -⟩ | ⟨size, -, -, hlow, -⟩
  · unfold toBits significantSize
    rw [hnone]
    rfl
  · have hmod : leNat target.threshold.toList % 256 ^ 32 = target.value :=
      Nat.mod_eq_of_lt (leNat_lt_pow _)
    rw [hmod, hzero] at hlow
    exact absurd hlow (Nat.not_le.mpr (Nat.pow_pos (by decide)))

/-- Compact bits hold the exponent and the mantissa. -/
theorem compact_fields {n : ℕ} (h : bits.toNat = compactOf n) :
    bits.toNat / 2 ^ 24 = compactFormat.exponentOf n ∧
      bits.toNat % 2 ^ 24 = compactFormat.mantissaOf n := by
  have hlt : compactFormat.mantissaOf n < 2 ^ 23 := FloatFormat.mantissaOf_lt n
  unfold compactOf at h
  omega

theorem mantissaOf_pos {n : ℕ} (hpos : 0 < n) : 2 ^ 15 ≤ compactFormat.mantissaOf n := by
  cases hexponent : compactFormat.exponentOf n with
  | zero =>
      have hfits : compactFormat.Fits n (compactFormat.exponentOf n) :=
        FloatFormat.fits_exponentOf n
      rw [hexponent] at hfits
      change n * 256 ^ 3 < 2 ^ 23 * 256 ^ 0 at hfits
      omega
  | succ exponent =>
      have hbound : 2 ^ 23 ≤ 256 * compactFormat.mantissaOf n :=
        FloatFormat.bound_le_mantissaOf hexponent
      omega

/-- The decoder accepts the exponents of the numbers without the top bit. -/
theorem exponentOf_le_iff {n : ℕ} : compactFormat.exponentOf n ≤ 32 ↔ n < 2 ^ 255 := by
  have hfits : compactFormat.Fits n 32 ↔ n < 2 ^ 255 := by
    change n * 256 ^ 3 < 2 ^ 23 * 256 ^ 32 ↔ n < 2 ^ 255
    omega
  rw [← hfits]
  refine ⟨fun hle ↦ ?_, FloatFormat.exponentOf_le⟩
  have hspec : compactFormat.Fits n (compactFormat.exponentOf n) := FloatFormat.fits_exponentOf n
  have hpow : 256 ^ compactFormat.exponentOf n ≤ 256 ^ 32 := Nat.pow_le_pow_right (by decide) hle
  exact Nat.lt_of_lt_of_le hspec (Nat.mul_le_mul_left _ hpow)

theorem decodable_compactOf_iff {n : ℕ} (hpos : 0 < n) (h : bits.toNat = compactOf n) :
    Decodable bits ↔ n < 2 ^ 255 := by
  obtain ⟨hexponent, hmantissa⟩ := compact_fields h
  have hlt : compactFormat.mantissaOf n < 2 ^ 23 := FloatFormat.mantissaOf_lt n
  have hlow := mantissaOf_pos hpos
  rw [← exponentOf_le_iff, Decodable, hexponent, hmantissa]
  refine ⟨fun hdecodable ↦ hdecodable.2.2, fun hle ↦ ⟨by omega, hlt, hle⟩⟩

/-- The encoding of a number that the decoder accepts denotes the number rounded down. -/
theorem fromBits_compactOf {n : ℕ} (hpos : 0 < n) (hlt : n < 2 ^ 255)
    (h : bits.toNat = compactOf n) :
    ∃ decoded, fromBits bits = some decoded ∧ decoded.value = compactFormat.roundDown n := by
  obtain ⟨decoded, hdecoded, hvalue⟩ :=
    fromBits_of_decodable ((decodable_compactOf_iff hpos h).mpr hlt)
  obtain ⟨hexponent, hmantissa⟩ := compact_fields h
  refine ⟨decoded, hdecoded, ?_⟩
  rw [hvalue, hexponent, hmantissa]
  rfl

/-- Numbers that round down alike have one encoding. -/
theorem compactOf_roundDown (n : ℕ) : compactOf (compactFormat.roundDown n) = compactOf n := by
  unfold compactOf
  rw [FloatFormat.exponentOf_roundDown, FloatFormat.mantissaOf_roundDown]

theorem roundDown_pos {n : ℕ} (hpos : 0 < n) : 0 < compactFormat.roundDown n := by
  refine Nat.pos_of_ne_zero fun hzero ↦ ?_
  have hlow := mantissaOf_pos hpos
  rw [← FloatFormat.mantissaOf_roundDown, hzero] at hlow
  have hnone : compactFormat.mantissaOf 0 = 0 := by
    unfold FloatFormat.mantissaOf
    rw [Nat.zero_mul, Nat.zero_div]
  rw [hnone] at hlow
  exact absurd hlow (by decide)

/-! ## The leading bytes -/

/-- The number of significant bytes that do not fit in compact bits: all but the
three leading ones, and all but two of them when the top byte is at least `0x80`. -/
def lowBytes (target : Target) : ℕ :=
  let size := (significantSize target.threshold).getD 0
  size - if 0x80 ≤ target.threshold.toList.getD (size - 1) 0 then 2 else 3

/-- The target with all but its leading bytes cleared. -/
def leadingBytes (target : Target) : Target :=
  ⟨⟨clearLow target.lowBytes target.threshold.toList, by
    rw [length_clearLow, List.Vector.toList_length]⟩⟩

theorem lowBytes_eq (hpos : 0 < target.value) :
    target.lowBytes = compactFormat.exponentOf target.value - 3 := by
  obtain ⟨size, hsome, -, hlow, hhigh⟩ := significantSize_eq_some hpos
  have htop : (target.threshold.toList.getD size 0).toNat = target.value / 256 ^ size := by
    rw [← leNat_div_mod]
    apply Nat.mod_eq_of_lt
    apply (Nat.div_lt_iff_lt_mul (Nat.pow_pos (by decide))).mpr
    rwa [Nat.mul_comm, ← pow_succ]
  have hbyte : 0x80 ≤ target.threshold.toList.getD size 0 ↔ 128 ≤ target.value / 256 ^ size := by
    rw [UInt8.le_iff_toNat_le, htop]
    rfl
  have hleading : leading target.value (size + 1) < 2 ^ 23 ↔ target.value / 256 ^ size < 128 := by
    rw [leading, Nat.div_lt_iff_lt_mul (Nat.pow_pos (by decide)),
      Nat.div_lt_iff_lt_mul (Nat.pow_pos (by decide)), pow_succ]
    omega
  rw [exponentOf_eq_size hlow hhigh, lowBytes, hsome, Option.getD_some]
  simp only [Nat.add_sub_cancel]
  by_cases hsmall : target.value / 256 ^ size < 128
  · rw [if_pos (hleading.mpr hsmall), if_neg fun h ↦ Nat.not_le.mpr hsmall (hbyte.mp h)]
  · rw [if_neg fun h ↦ hsmall (hleading.mp h), if_pos (hbyte.mpr (Nat.not_lt.mp hsmall))]
    omega

/-- The leading bytes are what the encoding keeps. -/
theorem value_leadingBytes (hpos : 0 < target.value) :
    target.leadingBytes.value = compactFormat.roundDown target.value := by
  have hcleared : target.leadingBytes.value =
      target.value / 256 ^ target.lowBytes * 256 ^ target.lowBytes :=
    leNat_clearLow target.lowBytes target.threshold.toList
  rw [hcleared, lowBytes_eq hpos, FloatFormat.roundDown_eq]
  rfl

/-! ## The codec -/

/-- What the encoder returns is decoded to the leading bytes of the target,
which are encoded alike. -/
def RoundTrips (target : Target) : Prop :=
  ∀ bits, target.toBits = some bits → ∃ decoded, fromBits bits = some decoded ∧
    decoded = target.leadingBytes ∧ decoded.value ≤ target.value ∧ decoded.toBits = some bits

theorem roundTrips_iff (hpos : 0 < target.value) : target.RoundTrips ↔ target.value < 2 ^ 255 := by
  obtain ⟨bits, hencoded, hbits⟩ := toBits_of_pos hpos
  constructor
  · intro h
    obtain ⟨decoded, hdecoded, -⟩ := h bits hencoded
    exact (decodable_compactOf_iff hpos hbits).mp (fromBits_eq_some_iff.mp hdecoded).1
  · intro hlt bits' hencoded'
    rw [hencoded] at hencoded'
    obtain rfl := Option.some.inj hencoded'
    obtain ⟨decoded, hdecoded, hvalue⟩ := fromBits_compactOf hpos hlt hbits
    refine ⟨decoded, hdecoded, value_injective (hvalue.trans (value_leadingBytes hpos).symm),
      ?_, ?_⟩
    · rw [hvalue]
      exact FloatFormat.roundDown_le _
    · obtain ⟨again, hagain, hvalue'⟩ := @toBits_of_pos decoded (hvalue ▸ roundDown_pos hpos)
      rw [hvalue, compactOf_roundDown, ← hbits] at hvalue'
      rw [hagain, UInt32.toNat_inj.mp hvalue']

/-- Compact bits of a nonzero target are encoded to bits of the same target. -/
theorem toBits_of_fromBits (hdecoded : fromBits bits = some target) (hpos : 0 < target.value) :
    ∃ bits', target.toBits = some bits' ∧ fromBits bits' = fromBits bits := by
  obtain ⟨hrepresents, hlt⟩ := represents_of_fromBits hdecoded
  obtain ⟨bits', hencoded, hbits⟩ := toBits_of_pos hpos
  obtain ⟨decoded, hdecoded', hvalue⟩ := fromBits_compactOf hpos hlt hbits
  rw [FloatFormat.roundDown_of_represents hrepresents] at hvalue
  exact ⟨bits', hencoded, by rw [hdecoded, hdecoded', value_injective hvalue]⟩

end Target

/-- The encoder and the decoder fit together on a nonzero target exactly when its top
bit is clear, and on all compact bits. -/
theorem compact_codec_iff (target : Target) (bits : UInt32) :
    (target.threshold ≠ zeroHash →
      (target.RoundTrips ↔ leNat target.threshold.toList < 2 ^ 255)) ∧
    (Target.fromBits bits = some target → target.threshold ≠ zeroHash →
      ∃ bits', target.toBits = some bits' ∧ Target.fromBits bits' = Target.fromBits bits) := by
  refine ⟨fun hne ↦ Target.roundTrips_iff (Target.value_pos_iff.mpr hne), fun hdecoded hne ↦ ?_⟩
  exact Target.toBits_of_fromBits hdecoded (Target.value_pos_iff.mpr hne)

namespace Sample

def wideTarget : Target := ⟨spliceZeroed 29 [0xff, 0xff, 0x7f]⟩

theorem codec_of_wideTarget :
    wideTarget.RoundTrips ∧
      ∃ bits', wideTarget.toBits = some bits' ∧
        Target.fromBits bits' = Target.fromBits 0x207fffff := by
  have hne : wideTarget.threshold ≠ zeroHash := by decide
  have hcodec := compact_codec_iff wideTarget 0x207fffff
  exact ⟨(hcodec.1 hne).mpr (by decide +kernel), hcodec.2 (by decide +kernel) hne⟩

/-- The target of `Target::easy`. -/
def easyTarget : Target := ⟨List.Vector.replicate 32 0xff⟩

theorem easyTarget_not_decoded : ¬ ∀ target : Target, target.threshold ≠ zeroHash →
    target.RoundTrips := by
  intro h
  have hroundtrip := h easyTarget (by decide) 0x2100ffff (by decide +kernel)
  obtain ⟨decoded, hdecoded, -⟩ := hroundtrip
  have hnone : Target.fromBits 0x2100ffff = none := by decide +kernel
  rw [hnone] at hdecoded
  cases hdecoded

end Sample

end Bitrst
