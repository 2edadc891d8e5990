import Bitrst.Chain
import Bitrst.Uint256Arithmetic

/-!
# The work of a block

`work_from_target` is exact, and none of its byte additions overflows, exactly
for the thresholds where no subtraction of the long division carries a borrow
into a byte 255 of the divisor.  A build with overflow checks stops at such a
borrow; one without loses it and goes on with a wrong remainder.
-/

namespace Bitrst

open Support

/-! ## The division with overflow checks -/

/-- `divLoop` with overflow checks. -/
def divLoopChecked (dividend divisor : Hash256) : ℕ → Hash256 → Hash256 →
    Except AddOverflow (Option Hash256)
  | 0, quotient, _ => .ok (some quotient)
  | bit + 1, quotient, remainder =>
      let shifted := shlOneU256Le remainder
      let remainder := if bitIsSet dividend bit then orByte shifted 0 1 else shifted
      if cmpLe divisor remainder ≠ .gt then
        match subU256LeChecked remainder divisor with
        | .error e => .error e
        | .ok none => .ok none
        | .ok (some remainder) =>
            divLoopChecked dividend divisor bit (setBit quotient bit) remainder
      else divLoopChecked dividend divisor bit quotient remainder

def divU256LeChecked (dividend divisor : Hash256) : Except AddOverflow (Option Hash256) :=
  if divisor = zeroHash then .ok none
  else if cmpLe dividend divisor = .lt then .ok (some zeroHash)
  else divLoopChecked dividend divisor 256 zeroHash zeroHash

def workFromTargetChecked (threshold : Hash256) : Except AddOverflow (Option Hash256) :=
  if threshold = zeroHash then .ok none
  else
    match addU256Le threshold 1 with
    | none => .ok none
    | some targetPlusOne =>
        match divU256LeChecked (notU256Le threshold) targetPlusOne with
        | .error e => .error e
        | .ok none => .ok none
        | .ok (some quotient) => .ok (addU256Le quotient 1)

/-! ## One turn of the division -/

theorem divLoop_zero (dividend divisor quotient remainder : Hash256) :
    divLoop dividend divisor 0 quotient remainder = some quotient := rfl

theorem divLoopChecked_zero (dividend divisor quotient remainder : Hash256) :
    divLoopChecked dividend divisor 0 quotient remainder = .ok (some quotient) := rfl

/-- The remainder of a turn before the comparison. -/
def shiftIn (dividend remainder : Hash256) (bit : ℕ) : Hash256 :=
  if bitIsSet dividend bit then orByte (shlOneU256Le remainder) 0 1 else shlOneU256Le remainder

seal subU256Le in
theorem divLoop_succ (dividend divisor quotient remainder : Hash256) (bit : ℕ) :
    divLoop dividend divisor (bit + 1) quotient remainder =
      if cmpLe divisor (shiftIn dividend remainder bit) ≠ .gt then
        match subU256Le (shiftIn dividend remainder bit) divisor with
        | none => none
        | some remainder => divLoop dividend divisor bit (setBit quotient bit) remainder
      else divLoop dividend divisor bit quotient (shiftIn dividend remainder bit) := rfl

theorem divLoopChecked_succ (dividend divisor quotient remainder : Hash256) (bit : ℕ) :
    divLoopChecked dividend divisor (bit + 1) quotient remainder =
      if cmpLe divisor (shiftIn dividend remainder bit) ≠ .gt then
        match subU256LeChecked (shiftIn dividend remainder bit) divisor with
        | .error e => .error e
        | .ok none => .ok none
        | .ok (some remainder) =>
            divLoopChecked dividend divisor bit (setBit quotient bit) remainder
      else divLoopChecked dividend divisor bit quotient (shiftIn dividend remainder bit) := rfl

/-- When the turn subtracts, no borrow is carried into a byte 255 of the divisor. -/
def SubtractsClean (dividend divisor bit : ℕ) : Prop :=
  divisor ≤ LongDivision.shifted dividend divisor bit →
    BorrowClear 32 (LongDivision.shifted dividend divisor bit) divisor 0

instance (dividend divisor bit : ℕ) : Decidable (SubtractsClean dividend divisor bit) :=
  inferInstanceAs (Decidable (_ → _))

theorem leNat_zeroHash : leNat zeroHash.toList = 0 := by decide

theorem width_eq : 256 ^ 32 = 2 ^ 256 := by norm_num

theorem eq_zeroHash_iff {value : Hash256} : value = zeroHash ↔ leNat value.toList = 0 := by
  constructor
  · rintro rfl
    exact leNat_zeroHash
  · intro hzero
    apply List.Vector.toList_injective
    exact leNat_injective (by simp) (hzero.trans leNat_zeroHash.symm)

theorem cmpLe_ne_gt_iff {left right : Hash256} :
    cmpLe left right ≠ .gt ↔ leNat left.toList ≤ leNat right.toList := by
  rw [cmpLe_eq_compare, compare_le_iff_le]

theorem leNat_shiftIn {dividend remainder : Hash256} {divisor bit : ℕ} (hdivisor : 0 < divisor)
    (hsmall : 2 * divisor ≤ 2 ^ 256)
    (hremainder : leNat remainder.toList = leNat dividend.toList / 2 ^ (bit + 1) % divisor) :
    leNat (shiftIn dividend remainder bit).toList =
      LongDivision.shifted (leNat dividend.toList) divisor bit := by
  have hlt : 2 * leNat remainder.toList < 2 ^ 256 := by
    have hmod := Nat.mod_lt (leNat dividend.toList / 2 ^ (bit + 1)) hdivisor
    rw [← hremainder] at hmod
    exact Nat.lt_of_lt_of_le (by omega) hsmall
  have hshl : leNat (shlOneU256Le remainder).toList = 2 * leNat remainder.toList := by
    have heq := leNat_shlOneLoop remainder 0 (by decide)
    rw [UInt8.toNat_zero, Nat.add_zero, width_eq, Nat.mod_eq_of_lt hlt] at heq
    exact heq
  have hbit := bitIsSet_iff dividend bit
  unfold LongDivision.shifted shiftIn
  rw [← hremainder]
  split
  · rename_i hset
    rw [leNat_orOne _ (by rw [hshl]; exact Nat.mul_mod_right 2 _), hshl, hbit.mp hset]
  · rename_i hset
    have hclear : leNat dividend.toList / 2 ^ bit % 2 = 0 := by
      have hne : ¬ leNat dividend.toList / 2 ^ bit % 2 = 1 := fun h ↦ hset (hbit.mpr h)
      exact (Nat.mod_two_eq_zero_or_one _).resolve_right hne
    rw [hshl, hclear, Nat.add_zero]

/-- The loop from a bit on: the quotient and remainder of the bits above are
there, and it ends with the whole quotient unless a subtraction overflows. -/
theorem divLoop_cases {dividend divisor : Hash256} (hdivisor : 0 < leNat divisor.toList)
    (hsmall : 2 * leNat divisor.toList ≤ 2 ^ 256) (bit : ℕ) (hbit : bit ≤ 256)
    (quotient remainder : Hash256)
    (hquotient : leNat quotient.toList =
      2 ^ bit * (leNat dividend.toList / 2 ^ bit / leNat divisor.toList))
    (hremainder : leNat remainder.toList =
      leNat dividend.toList / 2 ^ bit % leNat divisor.toList) :
    ((∀ i < bit, SubtractsClean (leNat dividend.toList) (leNat divisor.toList) i) ∧
        ∃ result, divLoopChecked dividend divisor bit quotient remainder = .ok (some result) ∧
          divLoop dividend divisor bit quotient remainder = some result ∧
          leNat result.toList = leNat dividend.toList / leNat divisor.toList) ∨
      ((¬ ∀ i < bit, SubtractsClean (leNat dividend.toList) (leNat divisor.toList) i) ∧
        divLoopChecked dividend divisor bit quotient remainder = .error .overflow) := by
  induction bit generalizing quotient remainder with
  | zero =>
      rw [Nat.pow_zero, Nat.one_mul, Nat.div_one] at hquotient
      refine Or.inl ⟨?_, quotient, divLoopChecked_zero .., divLoop_zero .., hquotient⟩
      intro i hi
      exact (Nat.not_lt_zero i hi).elim
  | succ bit ih =>
      have hall : (∀ i < bit + 1, SubtractsClean (leNat dividend.toList) (leNat divisor.toList) i) ↔
          SubtractsClean (leNat dividend.toList) (leNat divisor.toList) bit ∧
            ∀ i < bit, SubtractsClean (leNat dividend.toList) (leNat divisor.toList) i := by
        rw [Nat.forall_lt_succ_right, and_comm]
      have hshifted := leNat_shiftIn hdivisor hsmall hremainder
      rw [hall, divLoopChecked_succ, divLoop_succ]
      generalize shiftIn dividend remainder bit = current at hshifted ⊢
      by_cases hfits : leNat divisor.toList ≤
          LongDivision.shifted (leNat dividend.toList) (leNat divisor.toList) bit
      · -- The divisor fits: it is subtracted and the bit of the quotient is set.
        have hcmp : cmpLe divisor current ≠ .gt := by
          rw [cmpLe_ne_gt_iff, hshifted]
          exact hfits
        obtain ⟨hq, hr⟩ := LongDivision.step_fits hdivisor hfits
        rw [if_pos hcmp, if_pos hcmp]
        have hsub := @subU256Le_cases current divisor (hshifted ▸ hfits)
        rw [hshifted] at hsub
        rcases hsub with ⟨hclear, diff, hchecked, hplain, hdiff⟩ | ⟨hdirty, hchecked⟩
        · have hset : leNat (setBit quotient bit).toList =
              2 ^ bit * (leNat dividend.toList / 2 ^ bit / leNat divisor.toList) := by
            have hclearBit : leNat quotient.toList / 2 ^ bit % 2 = 0 := by
              rw [hquotient, pow_succ, Nat.mul_assoc,
                Nat.mul_div_cancel_left _ (Nat.two_pow_pos bit)]
              exact Nat.mul_mod_right 2 _
            rw [leNat_setBit quotient (by omega) hclearBit, hquotient, hq]
            ring
          have hnext := ih (by omega) (setBit quotient bit) diff hset (hdiff.trans hr.symm)
          have hclean : SubtractsClean (leNat dividend.toList) (leNat divisor.toList) bit :=
            fun _ ↦ hclear
          simp only [hchecked, hplain, hclean, true_and]
          exact hnext
        · refine Or.inr ⟨fun h ↦ hdirty (h.1 hfits), ?_⟩
          simp only [hchecked]
      · -- It does not fit: nothing is subtracted.
        have hcmp : ¬ cmpLe divisor current ≠ .gt := by
          rw [cmpLe_ne_gt_iff, hshifted]
          exact hfits
        obtain ⟨hq, hr⟩ := LongDivision.step_exceeds hdivisor hfits
        have hclean : SubtractsClean (leNat dividend.toList) (leNat divisor.toList) bit :=
          fun h ↦ (hfits h).elim
        rw [if_neg hcmp, if_neg hcmp]
        simp only [hclean, true_and]
        apply ih (by omega) quotient current ?_ (hshifted.trans hr.symm)
        rw [hquotient, hq]
        ring

/-! ## The whole division -/

/-- Divisors up to half the width, the only ones that a dividend complementary to them reaches. -/
theorem divU256Le_cases {dividend divisor : Hash256} (hdivisor : 0 < leNat divisor.toList)
    (hsum : leNat dividend.toList + leNat divisor.toList = 2 ^ 256) :
    ((∀ bit < 256, SubtractsClean (leNat dividend.toList) (leNat divisor.toList) bit) ∧
        ∃ quotient, divU256LeChecked dividend divisor = .ok (some quotient) ∧
          divU256Le dividend divisor = some quotient ∧
          leNat quotient.toList = leNat dividend.toList / leNat divisor.toList) ∨
      ((¬ ∀ bit < 256, SubtractsClean (leNat dividend.toList) (leNat divisor.toList) bit) ∧
        divU256LeChecked dividend divisor = .error .overflow) := by
  have hne : ¬ divisor = zeroHash := by
    rw [eq_zeroHash_iff]
    exact hdivisor.ne'
  unfold divU256LeChecked divU256Le
  rw [if_neg hne, if_neg hne]
  have hcmp : cmpLe dividend divisor = .lt ↔ leNat dividend.toList < leNat divisor.toList := by
    rw [cmpLe_eq_compare, compare_lt_iff_lt]
  by_cases hlt : leNat dividend.toList < leNat divisor.toList
  · rw [if_pos (hcmp.mpr hlt), if_pos (hcmp.mpr hlt)]
    refine Or.inl ⟨?_, zeroHash, rfl, rfl, ?_⟩
    · intro bit _ hfits
      exact (LongDivision.shifted_of_lt hlt bit hfits).elim
    · rw [leNat_zeroHash, Nat.div_eq_of_lt hlt]
  · rw [if_neg (mt hcmp.mp hlt), if_neg (mt hcmp.mp hlt)]
    have hbound : leNat dividend.toList < 2 ^ 256 := width_eq ▸ leNat_lt_pow dividend
    apply divLoop_cases hdivisor (by rw [← hsum]; omega) 256 (Nat.le_refl _)
    · rw [leNat_zeroHash, Nat.div_eq_of_lt hbound, Nat.zero_div, Nat.mul_zero]
    · rw [leNat_zeroHash, Nat.div_eq_of_lt hbound, Nat.zero_mod]

/-! ## Work -/

/-- No subtraction of the division of `2 ^ 256 - 1 - threshold` by `threshold + 1` carries a
borrow into a byte 255 of `threshold + 1`. -/
def BorrowFree (threshold : ℕ) : Prop :=
  ∀ bit < 256, SubtractsClean (2 ^ 256 - 1 - threshold) (threshold + 1) bit

/-- A divisor without a byte 255 carries no borrow into one. -/
theorem borrowFree_of_bytes {threshold : ℕ}
    (h : ∀ i < 32, (threshold + 1) / 256 ^ i % 256 ≠ 255) : BorrowFree threshold := by
  intro bit _ _ i hi hbyte
  exact (h i hi hbyte).elim

/-- A divisor of more than half the width is never subtracted. -/
theorem borrowFree_of_large {threshold : ℕ} (h : 2 ^ 255 < threshold + 1) :
    BorrowFree threshold := by
  have hlt : 2 ^ 256 - 1 - threshold < threshold + 1 := by omega
  intro bit _ hfits
  exact (LongDivision.shifted_of_lt hlt bit hfits).elim

/-- `(2 ^ 256 - d) / d + 1` is `2 ^ 256 / d`. -/
theorem proof_eq {width divisor : ℕ} (hdivisor : 0 < divisor) (hle : divisor ≤ width) :
    (width - divisor) / divisor + 1 = width / divisor := by
  rw [← Nat.add_div_right _ hdivisor, Nat.sub_add_cancel hle]

theorem workFromTarget_cases {threshold : Hash256} (hpos : 0 < leNat threshold.toList)
    (hlt : leNat threshold.toList < 2 ^ 256 - 1) :
    (BorrowFree (leNat threshold.toList) ∧
        ∃ work, workFromTargetChecked threshold = .ok (some work) ∧
          workFromTarget threshold = some work ∧
          leNat work.toList = 2 ^ 256 / (leNat threshold.toList + 1)) ∨
      (¬ BorrowFree (leNat threshold.toList) ∧
        workFromTargetChecked threshold = .error .overflow) := by
  have hne : ¬ threshold = zeroHash := by
    rw [eq_zeroHash_iff]
    exact hpos.ne'
  obtain ⟨next, hnext, hvalue⟩ := addCarryLoop_eq_some threshold 1 (by decide)
    (by rw [width_eq]; change _ + 1 < _; omega)
  change leNat next.toList = leNat threshold.toList + 1 at hvalue
  have hinverted : leNat (notU256Le threshold).toList + (leNat threshold.toList + 1) = 2 ^ 256 := by
    rw [← width_eq, ← leNat_not threshold]
    rfl
  have hdividend : leNat (notU256Le threshold).toList = 2 ^ 256 - 1 - leNat threshold.toList := by
    omega
  have hdivision := @divU256Le_cases (notU256Le threshold) next (by omega)
    (by rw [hvalue]; exact hinverted)
  rw [hvalue, hdividend] at hdivision
  unfold workFromTargetChecked workFromTarget
  rw [if_neg hne, if_neg hne]
  have hadd : addU256Le threshold 1 = some next := hnext
  simp only [hadd, Option.bind_eq_bind, Option.bind_some]
  rcases hdivision with ⟨hclean, quotient, hchecked, hplain, hquotient⟩ | ⟨hdirty, hchecked⟩
  · have hproof : leNat quotient.toList + 1 = 2 ^ 256 / (leNat threshold.toList + 1) := by
      have hcomplement : 2 ^ 256 - 1 - leNat threshold.toList =
          2 ^ 256 - (leNat threshold.toList + 1) := by omega
      rw [hquotient, hcomplement]
      exact proof_eq (Nat.succ_pos _) (by omega)
    have hsmall : 2 ^ 256 / (leNat threshold.toList + 1) < 2 ^ 256 :=
      Nat.div_lt_self (Nat.two_pow_pos 256) (by omega)
    obtain ⟨work, hwork, hworkValue⟩ := addCarryLoop_eq_some quotient 1 (by decide)
      (by rw [width_eq]; change _ + 1 < _; rw [hproof]; exact hsmall)
    have haddWork : addU256Le quotient 1 = some work := hwork
    refine Or.inl ⟨hclean, work, ?_, ?_, hworkValue.trans hproof⟩
    · simp only [hchecked, haddWork]
    · simp only [hplain, Option.bind_some, haddWork]
  · refine Or.inr ⟨hdirty, ?_⟩
    simp only [hchecked]

/-- The work is `2 ^ 256 / (threshold + 1)`, and no addition overflows. -/
def ExactWork (threshold : Hash256) : Prop :=
  ∃ work, workFromTarget threshold = some work ∧
    workFromTargetChecked threshold = .ok (some work) ∧
    leNat work.toList = 2 ^ 256 / (leNat threshold.toList + 1)

/-! ## Compact targets -/

/-- The bytes outside the spliced ones are zero. -/
theorem spliceZeroed_getD {offset index : ℕ} {bytes : Bytes}
    (houtside : index < offset ∨ offset + bytes.length ≤ index) :
    (spliceZeroed offset bytes).toList.getD index 0 = 0 := by
  change ((List.replicate offset (0 : UInt8) ++ bytes ++ List.replicate 32 0).take 32).getD
    index 0 = 0
  rw [List.getD_eq_getElem?_getD, List.getElem?_take]
  split
  · rcases houtside with hbefore | hafter
    · rw [List.append_assoc, List.getElem?_append_left (by simpa using hbefore),
        List.getElem?_replicate, if_pos hbefore]
      rfl
    · rw [List.getElem?_append_right (by simpa using hafter), List.getElem?_replicate]
      split <;> rfl
  · rfl

/-- A threshold of compact bits is not the largest number of the width. -/
theorem Target.fromBits_lt {bits : UInt32} {target : Target}
    (h : Target.fromBits bits = some target) :
    leNat target.threshold.toList < 2 ^ 256 - 1 := by
  have hzero : ∃ index < 32, target.threshold.toList.getD index 0 = 0 := by
    unfold Target.fromBits at h
    simp only at h
    split at h
    · cases h
    · split at h
      · obtain rfl := Option.some.inj h
        refine ⟨31, by decide, spliceZeroed_getD (Or.inr ?_)⟩
        rw [List.length_take]
        omega
      · split at h
        · cases h
        · obtain rfl := Option.some.inj h
          exact ⟨0, by decide, spliceZeroed_getD (Or.inl (by omega))⟩
  obtain ⟨index, hindex, hbyte⟩ := hzero
  have hwidth := leNat_lt_pow target.threshold
  rw [width_eq] at hwidth
  by_contra hlarge
  have hmax : leNat target.threshold.toList = 2 ^ 256 - 1 := by omega
  have hdigit := leNat_div_mod target.threshold.toList index
  rw [hbyte, hmax, UInt8.toNat_zero] at hdigit
  have hall : ∀ i < 32, (2 ^ 256 - 1) / 256 ^ i % 256 ≠ 0 := by decide +kernel
  exact hall index hindex hdigit

theorem exactWork_iff {threshold : Hash256} (hpos : 0 < leNat threshold.toList)
    (hlt : leNat threshold.toList < 2 ^ 256 - 1) :
    ExactWork threshold ↔ BorrowFree (leNat threshold.toList) := by
  rcases workFromTarget_cases hpos hlt with ⟨hclean, work, hchecked, hplain, hvalue⟩ |
    ⟨hdirty, hchecked⟩
  · exact ⟨fun _ ↦ hclean, fun _ ↦ ⟨work, hplain, hchecked, hvalue⟩⟩
  · refine ⟨?_, fun hclean ↦ (hdirty hclean).elim⟩
    rintro ⟨work, -, hok, -⟩
    rw [hchecked] at hok
    cases hok

/-- The work of a threshold, and with it the work of compact bits that decode to a nonzero target,
is exact without an overflow exactly when the division is free of the borrows that overflow. -/
theorem work_exact_iff (threshold : Hash256) (bits : UInt32) (target : Target) :
    (0 < leNat threshold.toList → leNat threshold.toList < 2 ^ 256 - 1 →
      (ExactWork threshold ↔ BorrowFree (leNat threshold.toList))) ∧
    (Target.fromBits bits = some target → target.threshold ≠ zeroHash →
      ((∃ work, blockWork bits = .ok work ∧
          workFromTargetChecked target.threshold = .ok (some work.bytes) ∧
          work.toNat = 2 ^ 256 / (leNat target.threshold.toList + 1)) ↔
        BorrowFree (leNat target.threshold.toList))) := by
  refine ⟨exactWork_iff, fun htarget hne ↦ ?_⟩
  have hpos : 0 < leNat target.threshold.toList :=
    Nat.pos_of_ne_zero fun hzero ↦ hne (eq_zeroHash_iff.mpr hzero)
  rw [← exactWork_iff hpos (Target.fromBits_lt htarget)]
  unfold blockWork
  simp only [htarget, Target.toWork]
  constructor
  · rintro ⟨work, hok, hchecked, hvalue⟩
    refine ⟨work.bytes, ?_, hchecked, hvalue⟩
    cases hplain : workFromTarget target.threshold with
    | none =>
        rw [hplain] at hok
        cases hok
    | some bytes =>
        rw [hplain] at hok
        rw [← Except.ok.inj hok]
  · rintro ⟨work, hplain, hchecked, hvalue⟩
    exact ⟨⟨work⟩, by rw [hplain], hchecked, hvalue⟩

end Bitrst

namespace Bitrst.Sample

open Support

/-- The target of the bits 0x1d00fefe. -/
def plainTarget : Target := ⟨spliceZeroed 26 [0xfe, 0xfe, 0x00]⟩

theorem work_of_plainTarget : ExactWork plainTarget.threshold ∧
    ∃ work, blockWork 0x1d00fefe = .ok work ∧
      workFromTargetChecked plainTarget.threshold = .ok (some work.bytes) ∧
      work.toNat = 2 ^ 256 / (leNat plainTarget.threshold.toList + 1) := by
  have hfree : BorrowFree (leNat plainTarget.threshold.toList) :=
    borrowFree_of_bytes (by decide +kernel)
  have hpos : 0 < leNat plainTarget.threshold.toList := by decide +kernel
  have hlt : leNat plainTarget.threshold.toList < 2 ^ 256 - 1 := by decide +kernel
  obtain ⟨hthreshold, hbits⟩ := work_exact_iff plainTarget.threshold 0x1d00fefe plainTarget
  exact ⟨(hthreshold hpos hlt).mpr hfree,
    (hbits (by decide +kernel) (by decide +kernel)).mpr hfree⟩

/-- The target of the bits 0x1d00ff1c: its work comes out 13371 too large. -/
theorem lost_borrow : ¬ ((∀ threshold : Hash256, 0 < leNat threshold.toList →
      leNat threshold.toList < 2 ^ 256 - 1 → ExactWork threshold) ∧
    ∀ bits target, Target.fromBits bits = some target → target.threshold ≠ zeroHash →
      ∃ work, blockWork bits = .ok work ∧
        workFromTargetChecked target.threshold = .ok (some work.bytes) ∧
        work.toNat = 2 ^ 256 / (leNat target.threshold.toList + 1)) := by
  rintro ⟨-, h⟩
  have hbits : Target.fromBits 0x1d00ff1c = some ⟨spliceZeroed 26 [0x1c, 0xff, 0x00]⟩ := by
    decide +kernel
  obtain ⟨work, hok, -, hvalue⟩ := h _ _ hbits (by decide +kernel)
  have hactual : blockWork 0x1d00ff1c = .ok ⟨spliceZeroed 0 [0x00, 0x00, 0xe5, 0x00, 0x01]⟩ := by
    decide +kernel
  rw [hok] at hactual
  rw [Except.ok.inj hactual] at hvalue
  exact absurd hvalue (by decide +kernel)

end Bitrst.Sample
