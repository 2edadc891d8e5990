import Bitrst.CompactTarget

/-!
# Retargeting

The byte loops of `adjust_bits` multiply the previous target by the clamped
timespan into 36 bytes and divide the product by the expected timespan, so that the
result is the exact quotient or, above 256 bits, nothing.
-/

namespace Bitrst

open Support

theorem toNat_shiftByte (x : UInt64) : (x >>> 8).toNat = x.toNat / 256 := by
  rw [UInt64.toNat_shiftRight]
  change x.toNat >>> 8 = _
  rw [Nat.shiftRight_eq_div_pow]

theorem toNat_lowByte (x : UInt64) : x.toUInt8.toNat = x.toNat % 256 := UInt64.toNat_toUInt8 x

/-! ## The product -/

/-- The products of the bytes, and the carry out of them, make up the product. -/
theorem mulBytes_eq {numerator : UInt64} (hnumerator : numerator.toNat < 2 ^ 32) (bytes : Bytes)
    {carry : UInt64} (hcarry : carry.toNat ≤ numerator.toNat) :
    ∃ low high, mulBytes numerator bytes carry = some (low, high) ∧ low.length = bytes.length ∧
      high.toNat ≤ numerator.toNat ∧
      leNat low + 256 ^ bytes.length * high.toNat =
        leNat bytes * numerator.toNat + carry.toNat := by
  induction bytes generalizing carry with
  | nil => exact ⟨[], carry, rfl, rfl, hcarry, by simp⟩
  | cons byte rest ih =>
      have hbyte := byte.toNat_lt
      have hproduct : byte.toNat * numerator.toNat + carry.toNat ≤ 256 * numerator.toNat := by
        calc byte.toNat * numerator.toNat + carry.toNat
            ≤ 255 * numerator.toNat + numerator.toNat :=
              Nat.add_le_add (Nat.mul_le_mul_right _ (by omega)) hcarry
          _ = 256 * numerator.toNat := by ring
      have hmul : checkedMulU64 byte.toUInt64 numerator = some (byte.toUInt64 * numerator) := by
        rw [checkedMulU64, if_pos (by rw [UInt8.toNat_toUInt64]; omega)]
      have hmulNat : (byte.toUInt64 * numerator).toNat = byte.toNat * numerator.toNat := by
        rw [UInt64.toNat_mul, UInt8.toNat_toUInt64, Nat.mod_eq_of_lt (by omega)]
      have hadd : checkedAddU64 (byte.toUInt64 * numerator) carry =
          some (byte.toUInt64 * numerator + carry) := by
        rw [checkedAddU64, if_pos (by rw [hmulNat]; omega)]
      have haddNat : (byte.toUInt64 * numerator + carry).toNat =
          byte.toNat * numerator.toNat + carry.toNat := by
        rw [UInt64.toNat_add, hmulNat, Nat.mod_eq_of_lt (by omega)]
      have hnext := toNat_shiftByte (byte.toUInt64 * numerator + carry)
      rw [haddNat] at hnext
      obtain ⟨low, high, hrest, hlength, hhigh, hvalue⟩ :=
        @ih ((byte.toUInt64 * numerator + carry) >>> 8) (by omega)
      refine ⟨(byte.toUInt64 * numerator + carry).toUInt8 :: low, high, ?_, ?_, hhigh, ?_⟩
      · rw [mulBytes, hmul]
        simp only [Option.bind_eq_bind, Option.bind_some, hadd, hrest]
      · rw [List.length_cons, List.length_cons, hlength]
      · have hdigit := Nat.mod_add_div (byte.toNat * numerator.toNat + carry.toNat) 256
        rw [leNat_cons, leNat_cons, toNat_lowByte, haddNat, List.length_cons, pow_succ']
        calc (byte.toNat * numerator.toNat + carry.toNat) % 256 + 256 * leNat low +
              256 * 256 ^ rest.length * high.toNat
            = (byte.toNat * numerator.toNat + carry.toNat) % 256 +
                256 * (leNat low + 256 ^ rest.length * high.toNat) := by ring
          _ = (byte.toNat * numerator.toNat + carry.toNat) % 256 +
                256 * (leNat rest * numerator.toNat +
                  (byte.toNat * numerator.toNat + carry.toNat) / 256) := by rw [hvalue, hnext]
          _ = (byte.toNat * numerator.toNat + carry.toNat) % 256 +
                256 * ((byte.toNat * numerator.toNat + carry.toNat) / 256) +
                  256 * leNat rest * numerator.toNat := by ring
          _ = (byte.toNat + 256 * leNat rest) * numerator.toNat + carry.toNat := by
              rw [hdigit]
              ring

/-- The bytes of a carry. -/
theorem spreadCarry_eq (n : ℕ) (carry : UInt64) :
    (spreadCarry n carry).1.length = n ∧ (spreadCarry n carry).2.toNat = carry.toNat / 256 ^ n ∧
      leNat (spreadCarry n carry).1 = carry.toNat % 256 ^ n := by
  induction n generalizing carry with
  | zero => exact ⟨rfl, (Nat.div_one _).symm, (Nat.mod_one _).symm⟩
  | succ n ih =>
      obtain ⟨hlength, hrest, hvalue⟩ := ih (carry >>> 8)
      rw [toNat_shiftByte] at hrest hvalue
      refine ⟨?_, ?_, ?_⟩
      · rw [spreadCarry, List.length_cons, hlength]
      · rw [spreadCarry, hrest, Nat.div_div_eq_div_mul, pow_succ']
      · rw [spreadCarry, leNat_cons, hvalue, toNat_lowByte, pow_succ', Nat.mod_mul]

/-! ## The quotient -/

section Division

variable {divisor : UInt64} (hdivisor : 0 < divisor.toNat) (hbound : divisor.toNat ≤ 2 ^ 32)

include hdivisor hbound

/-- What the division reads at a byte, and what it leaves for the lower ones. -/
theorem divLe_step {remainder : UInt64} (hremainder : remainder.toNat < divisor.toNat)
    (byte : UInt8) :
    ∃ accumulator : UInt64, (checkedMulU64 remainder 256).bind
        (fun shifted ↦ checkedAddU64 shifted byte.toUInt64) = some accumulator ∧
      accumulator.toNat = remainder.toNat * 256 + byte.toNat ∧
      (accumulator / divisor).toNat < 256 ∧ (accumulator % divisor).toNat < divisor.toNat := by
  have hbyte := byte.toNat_lt
  have hmul : checkedMulU64 remainder 256 = some (remainder * 256) := by
    rw [checkedMulU64, if_pos]
    change remainder.toNat * 256 < _
    omega
  have hmulNat : (remainder * 256).toNat = remainder.toNat * 256 := by
    rw [UInt64.toNat_mul]
    change remainder.toNat * 256 % _ = _
    omega
  have haddNat : (remainder * 256 + byte.toUInt64).toNat = remainder.toNat * 256 + byte.toNat := by
    rw [UInt64.toNat_add, hmulNat, UInt8.toNat_toUInt64, Nat.mod_eq_of_lt (by omega)]
  refine ⟨remainder * 256 + byte.toUInt64, ?_, haddNat, ?_, ?_⟩
  · rw [hmul, Option.bind_some, checkedAddU64, if_pos]
    rw [hmulNat, UInt8.toNat_toUInt64]
    omega
  · rw [UInt64.toNat_div, haddNat]
    apply (Nat.div_lt_iff_lt_mul hdivisor).mpr
    omega
  · rw [UInt64.toNat_mod]
    exact Nat.mod_lt _ hdivisor

/-- Over the lower bytes every byte of the quotient is collected. -/
theorem divLeLoop_low {bytes : Bytes} (hlength : bytes.length ≤ 32) {remainder : UInt64}
    (hremainder : remainder.toNat < divisor.toNat) (output : Bytes) :
    ∃ quotient, divLeLoop divisor bytes remainder output = some (quotient ++ output) ∧
      quotient.length = bytes.length ∧
      leNat quotient =
        (remainder.toNat * 256 ^ bytes.length + leNat bytes.reverse) / divisor.toNat := by
  induction bytes generalizing remainder output with
  | nil =>
      refine ⟨[], rfl, rfl, ?_⟩
      rw [List.length_nil, pow_zero, Nat.mul_one, List.reverse_nil, leNat_nil, Nat.add_zero,
        Nat.div_eq_of_lt hremainder]
  | cons byte rest ih =>
      obtain ⟨accumulator, hread, hvalue, hdigit, hleft⟩ :=
        divLe_step hdivisor hbound hremainder byte
      rw [List.length_cons] at hlength
      obtain ⟨quotient, hrest, hcount, hquotient⟩ :=
        ih (by omega) hleft ((accumulator / divisor).toUInt8 :: output)
      refine ⟨quotient ++ [(accumulator / divisor).toUInt8], ?_, by simp [hcount], ?_⟩
      · obtain ⟨shifted, hshifted, hadded⟩ := Option.bind_eq_some_iff.mp hread
        rw [divLeLoop, hshifted]
        simp only [Option.bind_eq_bind, Option.bind_some, hadded]
        rw [if_neg (by omega), hrest, List.append_assoc, List.singleton_append]
      · have hsplit := Nat.div_add_mod accumulator.toNat divisor.toNat
        rw [leNat_append, leNat_cons, leNat_nil, toNat_lowByte, Nat.mod_eq_of_lt hdigit, hquotient,
          hcount, UInt64.toNat_div, UInt64.toNat_mod, List.reverse_cons, leNat_append, leNat_cons,
          leNat_nil, List.length_reverse, List.length_cons, pow_succ']
        have hall : remainder.toNat * (256 * 256 ^ rest.length) +
            (leNat rest.reverse + 256 ^ rest.length * (byte.toNat + 256 * 0)) =
              accumulator.toNat % divisor.toNat * 256 ^ rest.length + leNat rest.reverse +
                divisor.toNat * (256 ^ rest.length * (accumulator.toNat / divisor.toNat)) := by
          calc remainder.toNat * (256 * 256 ^ rest.length) +
                (leNat rest.reverse + 256 ^ rest.length * (byte.toNat + 256 * 0))
              = (remainder.toNat * 256 + byte.toNat) * 256 ^ rest.length +
                  leNat rest.reverse := by ring
            _ = (divisor.toNat * (accumulator.toNat / divisor.toNat) +
                  accumulator.toNat % divisor.toNat) * 256 ^ rest.length +
                    leNat rest.reverse := by rw [hsplit, hvalue]
            _ = _ := by ring
        rw [hall, Nat.add_mul_div_left _ _ hdivisor, Nat.mul_zero, Nat.add_zero]

/-- The bytes above the lower ones must not contribute to the quotient. -/
theorem divLeLoop_eq {high : ℕ} {bytes : Bytes} (hlength : bytes.length = 32 + high)
    {remainder : UInt64} (hremainder : remainder.toNat < divisor.toNat) :
    let total := (remainder.toNat * 256 ^ bytes.length + leNat bytes.reverse) / divisor.toNat
    (total < 2 ^ 256 ∧ ∃ quotient, divLeLoop divisor bytes remainder [] = some quotient ∧
        quotient.length = 32 ∧ leNat quotient = total) ∨
      (2 ^ 256 ≤ total ∧ divLeLoop divisor bytes remainder [] = none) := by
  induction high generalizing bytes remainder with
  | zero =>
      obtain ⟨quotient, hsome, hcount, hvalue⟩ :=
        divLeLoop_low hdivisor hbound hlength.le hremainder []
      rw [List.append_nil] at hsome
      have hlt := leNat_lt quotient
      rw [hcount, hlength, Nat.add_zero, width_eq, hvalue] at hlt
      exact Or.inl ⟨hlt, quotient, hsome, hcount.trans hlength, hvalue⟩
  | succ high ih =>
      cases bytes with
      | nil => simp at hlength
      | cons byte rest =>
          obtain ⟨accumulator, hread, hvalue, -, hleft⟩ :=
            divLe_step hdivisor hbound hremainder byte
          obtain ⟨shifted, hshifted, hadded⟩ := Option.bind_eq_some_iff.mp hread
          rw [List.length_cons] at hlength
          have hall : remainder.toNat * 256 ^ (byte :: rest).length +
              leNat (byte :: rest).reverse =
                accumulator.toNat * 256 ^ rest.length + leNat rest.reverse := by
            rw [List.length_cons, pow_succ', List.reverse_cons, leNat_append, leNat_cons, leNat_nil,
              List.length_reverse, hvalue]
            ring
          simp only [hall]
          rw [divLeLoop, hshifted]
          simp only [Option.bind_eq_bind, Option.bind_some, hadded]
          rw [if_pos (by omega)]
          by_cases hzero : accumulator / divisor = 0
          · -- Nothing was divided off, and the remainder is all that was read.
            have hsmall : accumulator.toNat < divisor.toNat := by
              have hquotient := congrArg UInt64.toNat hzero
              rw [UInt64.toNat_div] at hquotient
              exact (Nat.div_eq_zero_iff_lt hdivisor).mp hquotient
            have hmod : accumulator % divisor = accumulator := by
              rw [← UInt64.toNat_inj, UInt64.toNat_mod, Nat.mod_eq_of_lt hsmall]
            rw [if_neg (not_not.mpr hzero), hmod]
            exact ih (by omega) hsmall
          · rw [if_pos hzero]
            refine Or.inr ⟨?_, rfl⟩
            have hquotient : divisor.toNat ≤ accumulator.toNat := by
              refine Nat.not_lt.mp fun hlt ↦ hzero (UInt64.toNat_inj.mp ?_)
              rw [UInt64.toNat_div, Nat.div_eq_of_lt hlt]
              rfl
            rw [Nat.le_div_iff_mul_le hdivisor]
            calc 2 ^ 256 * divisor.toNat = divisor.toNat * 256 ^ 32 := by
                  rw [width_eq, Nat.mul_comm]
              _ ≤ accumulator.toNat * 256 ^ rest.length :=
                  Nat.mul_le_mul hquotient (Nat.pow_le_pow_right (by decide) (by omega))
              _ ≤ _ := Nat.le_add_right _ _

/-- The scaled threshold is the exact quotient, or nothing above 256 bits. -/
theorem mulDivThreshold_cases {numerator : UInt64} (hnumerator : numerator.toNat < 2 ^ 32)
    (threshold : Hash256) :
    let total := leNat threshold.toList * numerator.toNat / divisor.toNat
    (total < 2 ^ 256 ∧ ∃ scaled, mulDivThreshold threshold numerator divisor = some scaled ∧
        leNat scaled.toList = total) ∨
      (2 ^ 256 ≤ total ∧ mulDivThreshold threshold numerator divisor = none) := by
  have hzero : ¬ divisor = 0 := by
    rintro rfl
    exact absurd hdivisor (by decide)
  obtain ⟨low, carry, hmul, hlow, hcarry, hproduct⟩ :=
    @mulBytes_eq _ hnumerator threshold.toList 0 (Nat.zero_le _)
  obtain ⟨hhigh, hrest, hspread⟩ := spreadCarry_eq 4 carry
  have hnone : (spreadCarry 4 carry).2 = 0 := by
    rw [← UInt64.toNat_inj, hrest, Nat.div_eq_of_lt (by omega)]
    rfl
  rw [Nat.mod_eq_of_lt (by omega)] at hspread
  rw [List.Vector.toList_length] at hlow hproduct
  have hvalue : leNat (low ++ (spreadCarry 4 carry).1) =
      leNat threshold.toList * numerator.toNat := by
    rw [leNat_append, hlow, hspread, hproduct]
    rfl
  have hunfold : mulDivThreshold threshold numerator divisor =
      (divLeLoop divisor (low ++ (spreadCarry 4 carry).1).reverse 0 []).map (spliceZeroed 0) := by
    rw [mulDivThreshold, if_neg hzero, hmul]
    simp only [Option.bind_eq_bind, Option.bind_some]
    rw [if_neg (not_not.mpr hnone), divLeByU64, if_neg hzero]
  have hloop := @divLeLoop_eq _ hdivisor hbound 4 (low ++ (spreadCarry 4 carry).1).reverse
    (by rw [List.length_reverse, List.length_append, hlow, hhigh]) 0 hdivisor
  rw [List.reverse_reverse, hvalue, UInt64.toNat_zero, Nat.zero_mul, Nat.zero_add] at hloop
  rw [hunfold]
  rcases hloop with ⟨hlt, quotient, hsome, hlength, hquotient⟩ | ⟨hge, hfails⟩
  · refine Or.inl ⟨hlt, spliceZeroed 0 quotient, by rw [hsome]; rfl, ?_⟩
    rw [leNat_spliceZeroed (by omega), pow_zero, Nat.one_mul, hquotient]
  · exact Or.inr ⟨hge, by rw [hfails]; rfl⟩

end Division

/-! ## The retarget -/

/-- The largest target, that of `maxCompactBits`. -/
def maxTarget : Target := ⟨maxTargetThreshold⟩

theorem maxTarget_bounds : 0 < maxTarget.value ∧ maxTarget.value < 2 ^ 255 := by decide +kernel

theorem value_capToMaxTarget (threshold : Hash256) :
    (Target.mk (capToMaxTarget threshold)).value =
      min (leNat threshold.toList) maxTarget.value := by
  unfold capToMaxTarget
  split
  · rename_i hgt
    rw [cmpLe_eq_compare, compare_gt_iff_gt] at hgt
    exact (Nat.min_eq_right hgt.le).symm
  · rename_i hle
    exact (Nat.min_eq_left (cmpLe_ne_gt_iff.mp hle)).symm

theorem toNat_clampTimespan (actual : UInt32) :
    (clampTimespan actual targetTimespan).toNat =
      max (targetTimespan.toNat / 4) (min actual.toNat (4 * targetTimespan.toNat)) := by
  have hlow : (targetTimespan / 4).toNat = targetTimespan.toNat / 4 := by decide
  have hhigh : (saturatingMulU32 targetTimespan 4).toNat = 4 * targetTimespan.toNat := by decide
  unfold clampTimespan
  simp only [UInt32.lt_iff_toNat_lt, hlow, hhigh]
  split
  · rw [hlow]
    omega
  · split
    · rw [hhigh]
      omega
    · omega

/-- The previous target scaled by the clamped timespan, rounded down. -/
def retargeted (prev : Target) (timespan : UInt32) : ℕ :=
  prev.value * max (targetTimespan.toNat / 4) (min timespan.toNat (4 * targetTimespan.toNat)) /
    targetTimespan.toNat

theorem retargeted_mono (prev : Target) {timespan timespan' : UInt32}
    (hle : timespan ≤ timespan') : retargeted prev timespan ≤ retargeted prev timespan' := by
  have hspan := UInt32.le_iff_toNat_le.mp hle
  unfold retargeted
  exact Nat.div_le_div_right (Nat.mul_le_mul_left _ (by omega))

section Adjust

variable {prevBits : UInt32} {prev : Target}

/-- The scaling of a retarget is the exact quotient, or nothing above 256 bits. -/
theorem mulDivThreshold_retargeted (prev : Target) (timespan : UInt32) :
    (retargeted prev timespan < 2 ^ 256 ∧ ∃ scaled,
      mulDivThreshold prev.threshold (clampTimespan timespan targetTimespan).toUInt64
        targetTimespan.toUInt64 = some scaled ∧
      leNat scaled.toList = retargeted prev timespan) ∨
    (2 ^ 256 ≤ retargeted prev timespan ∧
      mulDivThreshold prev.threshold (clampTimespan timespan targetTimespan).toUInt64
        targetTimespan.toUInt64 = none) := by
  have hdivisor : 0 < targetTimespan.toUInt64.toNat := by decide
  have hbound : targetTimespan.toUInt64.toNat ≤ 2 ^ 32 := by decide
  have hnumerator : (clampTimespan timespan targetTimespan).toUInt64.toNat < 2 ^ 32 := by
    rw [UInt32.toNat_toUInt64]
    exact UInt32.toNat_lt _
  have hcases := mulDivThreshold_cases hdivisor hbound hnumerator prev.threshold
  rw [UInt32.toNat_toUInt64, UInt32.toNat_toUInt64, toNat_clampTimespan] at hcases
  exact hcases

/-- One spec for the retarget: an overflow, nothing to encode, or the encoding of the
scaled target below the largest one. -/
theorem adjustBits_cases (hprev : Target.fromBits prevBits = some prev) (timespan : UInt32) :
    (2 ^ 256 ≤ retargeted prev timespan ∧ adjustBits prevBits timespan = .error .overflow) ∨
    (retargeted prev timespan = 0 ∧ adjustBits prevBits timespan = .error .encodingFailed) ∨
    (0 < retargeted prev timespan ∧ retargeted prev timespan < 2 ^ 256 ∧
      ∃ bits, adjustBits prevBits timespan = .ok bits ∧
        bits.toNat = compactOf (min (retargeted prev timespan) maxTarget.value)) := by
  unfold adjustBits
  rw [hprev]
  simp only
  rcases mulDivThreshold_retargeted prev timespan with ⟨hlt, scaled, hsome, hvalue⟩ | ⟨hge, hnone⟩
  · rw [hsome]
    simp only
    have hcapped := value_capToMaxTarget scaled
    rw [hvalue] at hcapped
    rcases Nat.eq_zero_or_pos (retargeted prev timespan) with hzero | hpos
    · rw [hzero, Nat.zero_min] at hcapped
      rw [Target.toBits_of_zero hcapped]
      exact Or.inr (Or.inl ⟨hzero, rfl⟩)
    · obtain ⟨bits, hencoded, hbits⟩ :=
        @Target.toBits_of_pos (.mk (capToMaxTarget scaled))
          (hcapped ▸ Nat.lt_min.mpr ⟨hpos, maxTarget_bounds.1⟩)
      rw [hencoded]
      exact Or.inr (Or.inr ⟨hpos, hlt, bits, rfl, hcapped ▸ hbits⟩)
  · rw [hnone]
    exact Or.inl ⟨hge, rfl⟩

/-- New bits decode to the scaled and capped target, rounded down by its encoding. -/
theorem fromBits_of_adjustBits {timespan bits : UInt32}
    (hprev : Target.fromBits prevBits = some prev) (hok : adjustBits prevBits timespan = .ok bits) :
    ∃ decoded, Target.fromBits bits = some decoded ∧
      decoded.value = compactFormat.roundDown (min (retargeted prev timespan) maxTarget.value) := by
  rcases adjustBits_cases hprev timespan with
    ⟨-, herror⟩ | ⟨-, herror⟩ | ⟨hpos, -, bits', hok', hbits⟩
  · rw [hok] at herror
    cases herror
  · rw [hok] at herror
    cases herror
  · rw [hok] at hok'
    obtain rfl := Except.ok.inj hok'
    exact Target.fromBits_compactOf (Nat.lt_min.mpr ⟨hpos, maxTarget_bounds.1⟩)
      ((Nat.min_le_right _ _).trans_lt maxTarget_bounds.2) hbits

/-- The retarget follows its definition: the errors are those of the exact quotient,
the new bits are the compact encoding of the capped quotient, and what they decode
to grows with the timespan. -/
theorem adjustBits_exact (hprev : Target.fromBits prevBits = some prev) :
    (∀ timespan,
      (adjustBits prevBits timespan = .error .overflow ↔ 2 ^ 256 ≤ retargeted prev timespan) ∧
      (adjustBits prevBits timespan = .error .encodingFailed ↔ retargeted prev timespan = 0) ∧
      (0 < retargeted prev timespan → retargeted prev timespan < 2 ^ 256 →
        ∃ bits decoded, adjustBits prevBits timespan = .ok bits ∧
          bits.toNat = compactOf (min (retargeted prev timespan) maxTarget.value) ∧
          Target.fromBits bits = some decoded ∧
          decoded.value ≤ min (retargeted prev timespan) maxTarget.value)) ∧
    ∀ timespan timespan' bits bits' decoded decoded', timespan ≤ timespan' →
      adjustBits prevBits timespan = .ok bits → adjustBits prevBits timespan' = .ok bits' →
      Target.fromBits bits = some decoded → Target.fromBits bits' = some decoded' →
      decoded.value ≤ decoded'.value := by
  constructor
  · intro timespan
    rcases adjustBits_cases hprev timespan with ⟨hge, herror⟩ | ⟨hzero, herror⟩ |
      ⟨hpos, hlt, bits, hok, hbits⟩
    · rw [herror]
      refine ⟨iff_of_true rfl hge, iff_of_false (by rintro ⟨⟩) (by omega), ?_⟩
      intro _ hlt
      omega
    · rw [herror]
      refine ⟨iff_of_false (by rintro ⟨⟩) (by omega), iff_of_true rfl hzero, ?_⟩
      intro hpos
      omega
    · obtain ⟨decoded, hdecoded, hvalue⟩ := fromBits_of_adjustBits hprev hok
      rw [hok]
      refine ⟨iff_of_false (by rintro ⟨⟩) (by omega), iff_of_false (by rintro ⟨⟩) (by omega), ?_⟩
      intro _ _
      refine ⟨bits, decoded, rfl, hbits, hdecoded, ?_⟩
      rw [hvalue]
      exact FloatFormat.roundDown_le _
  · intro timespan timespan' bits bits' decoded decoded' hle hok hok' hdecoded hdecoded'
    obtain ⟨found, hfound, hvalue⟩ := fromBits_of_adjustBits hprev hok
    obtain ⟨found', hfound', hvalue'⟩ := fromBits_of_adjustBits hprev hok'
    rw [hdecoded] at hfound
    rw [hdecoded'] at hfound'
    obtain rfl := Option.some.inj hfound
    obtain rfl := Option.some.inj hfound'
    rw [hvalue, hvalue']
    exact FloatFormat.roundDown_mono (min_le_min_right _ (retargeted_mono prev hle))

/-- Quotients between which the retarget does not tell: they overflow together, or they have the
same leading bytes once capped. -/
def RetargetAlike (q q' : ℕ) : Prop :=
  q = q' ∨ 2 ^ 256 ≤ q ∧ 2 ^ 256 ≤ q' ∨
    0 < q ∧ q < 2 ^ 256 ∧ 0 < q' ∧ q' < 2 ^ 256 ∧
      compactFormat.roundDown (min q maxTarget.value) =
        compactFormat.roundDown (min q' maxTarget.value)

theorem compactOf_eq_iff {n m : ℕ} (hn : 0 < n) (hn' : n < 2 ^ 255) (hm : 0 < m)
    (hm' : m < 2 ^ 255) {bits bits' : UInt32} (hbits : bits.toNat = compactOf n)
    (hbits' : bits'.toNat = compactOf m) :
    bits = bits' ↔ compactFormat.roundDown n = compactFormat.roundDown m := by
  constructor
  · rintro rfl
    obtain ⟨decoded, hdecoded, hvalue⟩ := Target.fromBits_compactOf hn hn' hbits
    obtain ⟨decoded', hdecoded', hvalue'⟩ := Target.fromBits_compactOf hm hm' hbits'
    obtain rfl := Option.some.inj (hdecoded.symm.trans hdecoded')
    exact hvalue.symm.trans hvalue'
  · intro heq
    apply UInt32.toNat_inj.mp
    rw [hbits, hbits', ← Target.compactOf_roundDown n, heq, Target.compactOf_roundDown]

/-- Two retargets have one outcome exactly when their quotients are alike. -/
theorem adjustBits_eq_iff {prevBits' : UInt32} {prev' : Target}
    (hprev : Target.fromBits prevBits = some prev)
    (hprev' : Target.fromBits prevBits' = some prev') (timespan timespan' : UInt32) :
    adjustBits prevBits timespan = adjustBits prevBits' timespan' ↔
      RetargetAlike (retargeted prev timespan) (retargeted prev' timespan') := by
  have hcap := maxTarget_bounds
  unfold RetargetAlike
  rcases adjustBits_cases hprev timespan with ⟨hge, heq⟩ | ⟨hzero, heq⟩ |
    ⟨hpos, hlt, bits, heq, hbits⟩ <;>
  rcases adjustBits_cases hprev' timespan' with ⟨hge', heq'⟩ | ⟨hzero', heq'⟩ |
    ⟨hpos', hlt', bits', heq', hbits'⟩ <;>
  rw [heq, heq']
  · exact iff_of_true rfl (Or.inr (Or.inl ⟨hge, hge'⟩))
  · exact iff_of_false (by rintro ⟨⟩) (by omega)
  · exact iff_of_false (by rintro ⟨⟩) (by omega)
  · exact iff_of_false (by rintro ⟨⟩) (by omega)
  · exact iff_of_true rfl (Or.inl (hzero.trans hzero'.symm))
  · exact iff_of_false (by rintro ⟨⟩) (by omega)
  · exact iff_of_false (by rintro ⟨⟩) (by omega)
  · exact iff_of_false (by rintro ⟨⟩) (by omega)
  · have hround := compactOf_eq_iff (Nat.lt_min.mpr ⟨hpos, hcap.1⟩)
      ((Nat.min_le_right _ _).trans_lt hcap.2) (Nat.lt_min.mpr ⟨hpos', hcap.1⟩)
      ((Nat.min_le_right _ _).trans_lt hcap.2) hbits hbits'
    rw [Except.ok.injEq, hround]
    constructor
    · exact fun hsame ↦ Or.inr (Or.inr ⟨hpos, hlt, hpos', hlt', hsame⟩)
    · rintro (hsame | hlarge | hsame)
      · rw [hsame]
      · omega
      · exact hsame.2.2.2.2

/-- The retarget demands the largest target exactly when the quotient is not below it. -/
theorem adjustBits_maxCompactBits_iff (hprev : Target.fromBits prevBits = some prev)
    (timespan : UInt32) : adjustBits prevBits timespan = .ok maxCompactBits ↔
      maxTarget.value ≤ retargeted prev timespan ∧ retargeted prev timespan < 2 ^ 256 := by
  have hcap := maxTarget_bounds
  have hmax : maxCompactBits.toNat = compactOf maxTarget.value := by decide +kernel
  have hexact : compactFormat.roundDown maxTarget.value = maxTarget.value := by decide +kernel
  rcases adjustBits_cases hprev timespan with ⟨hge, heq⟩ | ⟨hzero, heq⟩ |
    ⟨hpos, hlt, bits, heq, hbits⟩ <;> rw [heq]
  · exact iff_of_false (by rintro ⟨⟩) (by omega)
  · exact iff_of_false (by rintro ⟨⟩) (by omega)
  · rw [Except.ok.injEq, compactOf_eq_iff (Nat.lt_min.mpr ⟨hpos, hcap.1⟩)
      ((Nat.min_le_right _ _).trans_lt hcap.2) hcap.1 hcap.2 hbits hmax, hexact]
    constructor
    · intro hround
      have hle := compactFormat.roundDown_le (min (retargeted prev timespan) maxTarget.value)
      rw [hround] at hle
      exact ⟨(le_min_iff.mp hle).1, hlt⟩
    · rintro ⟨hge, -⟩
      rw [Nat.min_eq_right hge, hexact]

end Adjust

namespace Sample

/-- Blocks that come twice as fast as expected. -/
theorem retarget_of_maxTarget :
    ∃ bits decoded, adjustBits maxCompactBits (targetTimespan / 2) = .ok bits ∧
      bits.toNat = compactOf (min (retargeted maxTarget (targetTimespan / 2)) maxTarget.value) ∧
      Target.fromBits bits = some decoded ∧
      decoded.value ≤ min (retargeted maxTarget (targetTimespan / 2)) maxTarget.value :=
  ((adjustBits_exact fromBits_maxCompactBits).1 (targetTimespan / 2)).2.2
    (by decide +kernel) (by decide +kernel)

end Sample

end Bitrst
