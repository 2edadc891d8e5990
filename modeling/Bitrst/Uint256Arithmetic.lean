import Bitrst.Uint256
import Bitrst.Support.LongDivision
import Mathlib.Tactic.IntervalCases

/-!
# The byte loops of `uint256.rs` as arithmetic

What each loop computes in terms of the numbers that its arrays denote.  The
subtraction adds the borrow to the byte it subtracts in a `u8`: next to the loop
as a build without overflow checks runs it stands the one of a build with them,
which stops at the byte where that sum overflows.
-/

namespace Bitrst

open Support

/-! ## Bits of bytes -/

theorem toNat_shlByte (byte carry : UInt8) (hcarry : carry.toNat ≤ 1) :
    ((byte <<< 1) ||| carry).toNat = 2 * byte.toNat % 256 + carry.toNat := by
  have hall : ∀ n < 256, ∀ c < 2, (n <<< 1 % 256) ||| c = 2 * n % 256 + c := by
    decide +kernel
  rw [UInt8.toNat_or, UInt8.toNat_shiftLeft]
  exact hall _ byte.toNat_lt _ (Nat.lt_succ_of_le hcarry)

theorem toNat_topBit (byte : UInt8) : (byte >>> 7).toNat = byte.toNat / 128 := by
  rw [UInt8.toNat_shiftRight]
  simp [Nat.shiftRight_eq_div_pow]

/-- Shifting by one bit doubles, modulo the width. -/
theorem leNat_shlOneLoop {n : ℕ} (value : List.Vector UInt8 n) (carry : UInt8)
    (hcarry : carry.toNat ≤ 1) :
    leNat (shlOneLoop value carry).toList = (2 * leNat value.toList + carry.toNat) % 256 ^ n := by
  induction n generalizing carry with
  | zero =>
      rw [Nat.pow_zero, Nat.mod_one, List.Vector.eq_nil (shlOneLoop value carry)]
      rfl
  | succ n ih =>
      have hbyte := value.head.toNat_lt
      rw [leNat_toList_succ value, shlOneLoop, List.Vector.toList_cons, leNat_cons,
        toNat_shlByte _ _ hcarry, ih _ _ (by rw [toNat_topBit]; omega), toNat_topBit,
        pow_succ' 256 n]
      generalize value.head.toNat = a at *
      generalize leNat value.tail.toList = x
      rw [show 2 * (a + 256 * x) + carry.toNat = (2 * a + carry.toNat) + 256 * (2 * x) by ring,
        Nat.mod_mul]
      congr 1
      · omega
      · congr 2
        omega

/-- Inverting the bytes takes the number from the largest one of the width. -/
theorem leNat_not {n : ℕ} (value : List.Vector UInt8 n) :
    leNat (value.map fun byte ↦ ~~~byte).toList + leNat value.toList + 1 = 256 ^ n := by
  induction n with
  | zero =>
      rw [List.Vector.eq_nil value]
      rfl
  | succ n ih =>
      have hbyte := value.head.toNat_lt
      have hnot : (~~~value.head).toNat = 255 - value.head.toNat := by
        rw [UInt8.toNat_not]
        rfl
      have htail := ih value.tail
      have hmap : (value.map fun byte ↦ ~~~byte).toList =
          (~~~value.head) :: (value.tail.map fun byte ↦ ~~~byte).toList := by
        have hsplit : value.toList = value.head :: value.tail.toList := by
          conv_lhs => rw [← List.Vector.cons_head_tail value]
          rfl
        rw [List.Vector.toList_map, hsplit, List.map_cons, List.Vector.toList_map]
      rw [hmap, leNat_cons, hnot, leNat_toList_succ value, pow_succ]
      omega

theorem leNat_lt_pow {n : ℕ} (value : List.Vector UInt8 n) : leNat value.toList < 256 ^ n := by
  have hlt := leNat_lt value.toList
  rwa [List.Vector.toList_length] at hlt

/-- Adding a number below 256 is exact when the sum has the width. -/
theorem addCarryLoop_eq_some {n : ℕ} (value : List.Vector UInt8 n) (carry : UInt64)
    (hcarry : carry.toNat < 256) (hfits : leNat value.toList + carry.toNat < 256 ^ n) :
    ∃ sum, addCarryLoop value carry = some sum ∧
      leNat sum.toList = leNat value.toList + carry.toNat := by
  induction n generalizing carry with
  | zero =>
      have hzero : carry.toNat = 0 := by
        rw [Nat.pow_zero] at hfits
        omega
      refine ⟨value, ?_, by omega⟩
      rw [addCarryLoop, if_pos (UInt64.toNat_inj.mp hzero)]
  | succ n ih =>
      have hbyte := value.head.toNat_lt
      have hwide : value.head.toUInt64.toNat = value.head.toNat := UInt8.toNat_toUInt64 _
      have hsum : (value.head.toUInt64 + carry).toNat = value.head.toNat + carry.toNat := by
        rw [UInt64.toNat_add, hwide]
        omega
      have hchecked : checkedAddU64 value.head.toUInt64 carry =
          some (value.head.toUInt64 + carry) := if_pos (by omega)
      have hlow : (value.head.toUInt64 + carry).toUInt8.toNat =
          (value.head.toNat + carry.toNat) % 256 := by
        rw [UInt64.toNat_toUInt8, hsum]
      have hshift : ((value.head.toUInt64 + carry) >>> 8).toNat =
          (value.head.toNat + carry.toNat) / 256 := by
        rw [UInt64.toNat_shiftRight, hsum]
        simp [Nat.shiftRight_eq_div_pow]
      rw [leNat_toList_succ value, pow_succ'] at hfits
      simp only [addCarryLoop, hchecked, leNat_toList_succ value]
      split
      · -- The carry is used up here.
        rename_i hdone
        rw [← UInt64.toNat_inj, hshift] at hdone
        refine ⟨_, rfl, ?_⟩
        rw [List.Vector.toList_cons, leNat_cons, hlow]
        simp only [UInt64.toNat_zero] at hdone
        omega
      · obtain ⟨rest, hrest, heq⟩ := ih value.tail ((value.head.toUInt64 + carry) >>> 8)
          (by omega) (by omega)
        refine ⟨_, by rw [hrest]; rfl, ?_⟩
        rw [List.Vector.toList_cons, leNat_cons, hlow, heq, hshift]
        omega

/-! ## Single bits -/

theorem leNat_div_mod (bytes : Bytes) (index : ℕ) :
    leNat bytes / 256 ^ index % 256 = (bytes.getD index 0).toNat := by
  induction bytes generalizing index with
  | nil => simp
  | cons byte rest ih =>
      have hbyte := byte.toNat_lt
      cases index with
      | zero =>
          rw [leNat_cons, Nat.pow_zero, Nat.div_one, List.getD_cons_zero]
          omega
      | succ index =>
          have hdrop : (byte.toNat + 256 * leNat rest) / 256 = leNat rest := by omega
          rw [leNat_cons, pow_succ', ← Nat.div_div_eq_div_mul, hdrop, ih, List.getD_cons_succ]

theorem toNat_mask (bit : ℕ) : ((1 : UInt8) <<< UInt8.ofNat (bit % 8)).toNat = 2 ^ (bit % 8) := by
  have hall : ∀ k < 8, ((1 : UInt8) <<< UInt8.ofNat k).toNat = 2 ^ k := by decide
  exact hall _ (Nat.mod_lt _ (by decide))

/-- A bit of a number is a bit of one of its bytes. -/
theorem byte_bit (value bit : ℕ) :
    value / 2 ^ bit % 2 = value / 256 ^ (bit / 8) % 256 / 2 ^ (bit % 8) % 2 := by
  have hpow : 2 ^ bit = 256 ^ (bit / 8) * 2 ^ (bit % 8) := by
    rw [show (256 : ℕ) = 2 ^ 8 from rfl, ← pow_mul, ← pow_add, Nat.div_add_mod]
  rw [hpow, ← Nat.div_div_eq_div_mul]
  generalize value / 256 ^ (bit / 8) = x
  have hlt : bit % 8 < 8 := Nat.mod_lt _ (by decide)
  interval_cases bit % 8 <;> omega

theorem bitIsSet_iff (value : Hash256) (bit : ℕ) :
    bitIsSet value bit ↔ leNat value.toList / 2 ^ bit % 2 = 1 := by
  have hall : ∀ n < 256, ∀ k < 8, (n &&& 2 ^ k ≠ 0) ↔ n / 2 ^ k % 2 = 1 := by decide +kernel
  rw [byte_bit, leNat_div_mod, bitIsSet, bne_iff_ne, ne_eq, ← UInt8.toNat_inj, UInt8.toNat_and,
    toNat_mask]
  exact hall _ (UInt8.toNat_lt _) _ (Nat.mod_lt _ (by decide))

/-- A mask without a bit of the byte adds up. -/
theorem leNat_orByte {bytes : Bytes} {index : ℕ} {mask : UInt8} (hindex : index < bytes.length)
    (hmask : (bytes.getD index 0 ||| mask).toNat = (bytes.getD index 0).toNat + mask.toNat) :
    leNat (bytes.modify index (· ||| mask)) = leNat bytes + 256 ^ index * mask.toNat := by
  induction bytes generalizing index with
  | nil => simp at hindex
  | cons byte rest ih =>
      cases index with
      | zero =>
          rw [List.getD_cons_zero] at hmask
          rw [List.modify_zero_cons, leNat_cons, leNat_cons, hmask, Nat.pow_zero]
          omega
      | succ index =>
          rw [List.getD_cons_succ] at hmask
          rw [List.modify_succ_cons, leNat_cons, leNat_cons,
            ih (Nat.lt_of_succ_lt_succ hindex) hmask, pow_succ']
          ring

theorem leNat_setBit (value : Hash256) {bit : ℕ} (hbit : bit < 256)
    (hclear : leNat value.toList / 2 ^ bit % 2 = 0) :
    leNat (setBit value bit).toList = leNat value.toList + 2 ^ bit := by
  have hall : ∀ n < 256, ∀ k < 8, n / 2 ^ k % 2 = 0 → n ||| 2 ^ k = n + 2 ^ k := by decide +kernel
  have hindex : bit / 8 < value.toList.length := by
    rw [List.Vector.toList_length]
    omega
  rw [byte_bit, leNat_div_mod] at hclear
  have hmask := hall _ (UInt8.toNat_lt _) _ (Nat.mod_lt _ (by decide)) hclear
  have hor := @leNat_orByte value.toList (bit / 8) (1 <<< UInt8.ofNat (bit % 8)) hindex
    (by rw [UInt8.toNat_or, toNat_mask, hmask])
  have hpow : 2 ^ bit = 256 ^ (bit / 8) * 2 ^ (bit % 8) := by
    rw [show (256 : ℕ) = 2 ^ 8 from rfl, ← pow_mul, ← pow_add, Nat.div_add_mod]
  rw [hpow, ← toNat_mask]
  exact hor

/-- The low bit of an even number is set by adding one. -/
theorem leNat_orOne (value : Hash256) (heven : leNat value.toList % 2 = 0) :
    leNat (orByte value 0 1).toList = leNat value.toList + 1 := by
  have hbit := @leNat_setBit value 0 (by decide) (by rwa [Nat.pow_zero, Nat.div_one])
  exact hbit

/-! ## Subtraction with a borrow -/

/-- `attempt to add with overflow`. -/
inductive AddOverflow
  | overflow
  deriving DecidableEq

def checkedAddU8 (left right : UInt8) : Except AddOverflow UInt8 :=
  if left.toNat + right.toNat < 256 then .ok (left + right) else .error .overflow

/-- `subBorrowLoop` with overflow checks. -/
def subBorrowChecked : {n : ℕ} → List.Vector UInt8 n → List.Vector UInt8 n → UInt8 →
    Except AddOverflow (List.Vector UInt8 n × UInt8)
  | 0, left, _, borrow => .ok (left, borrow)
  | _ + 1, left, right, borrow =>
      match checkedAddU8 right.head borrow with
      | .error e => .error e
      | .ok subtrahend =>
          match subBorrowChecked left.tail right.tail (if left.head < subtrahend then 1 else 0) with
          | .error e => .error e
          | .ok rest => .ok ((left.head - subtrahend) ::ᵥ rest.1, rest.2)

/-- No byte 255 of the subtrahend is reached with a borrow: below each of them,
the subtrahend and the first borrow are at most the minuend. -/
def BorrowClear (n left right borrow : ℕ) : Prop :=
  ∀ i < n, right / 256 ^ i % 256 = 255 → right % 256 ^ i + borrow ≤ left % 256 ^ i

instance (n left right borrow : ℕ) : Decidable (BorrowClear n left right borrow) :=
  inferInstanceAs (Decidable (∀ i < n, _ → _))

/-- The condition byte by byte. -/
theorem borrowClear_succ {n a b borrow : ℕ} (ha : a < 256) (hb : b < 256) (hborrow : borrow ≤ 1)
    (x y : ℕ) :
    BorrowClear (n + 1) (a + 256 * x) (b + 256 * y) borrow ↔
      b + borrow < 256 ∧ BorrowClear n x y (if a < b + borrow then 1 else 0) := by
  have hlow : ∀ i c z : ℕ, c < 256 → (c + 256 * z) % 256 ^ (i + 1) = c + 256 * (z % 256 ^ i) := by
    intro i c z hc
    rw [pow_succ', Nat.mod_mul]
    congr 1
    · omega
    · congr 2
      omega
  have hbyte : ∀ i c z : ℕ, c < 256 → (c + 256 * z) / 256 ^ (i + 1) % 256 = z / 256 ^ i % 256 := by
    intro i c z hc
    rw [pow_succ', ← Nat.div_div_eq_div_mul]
    congr 2
    omega
  have hnext : ∀ i : ℕ, (b + 256 * y) % 256 ^ (i + 1) + borrow ≤ (a + 256 * x) % 256 ^ (i + 1) ↔
      y % 256 ^ i + (if a < b + borrow then 1 else 0) ≤ x % 256 ^ i := by
    intro i
    rw [hlow i b y hb, hlow i a x ha]
    split <;> omega
  constructor
  · intro h
    refine ⟨?_, fun i hi hfull ↦ ?_⟩
    · have hfirst := h 0 (Nat.succ_pos n)
      rw [Nat.pow_zero, Nat.div_one, Nat.mod_one, Nat.mod_one] at hfirst
      omega
    · rw [← hnext]
      exact h (i + 1) (Nat.succ_lt_succ hi) (by rwa [hbyte i b y hb])
  · rintro ⟨hfirst, h⟩ i hi hfull
    cases i with
    | zero =>
        rw [Nat.pow_zero, Nat.div_one] at hfull
        rw [Nat.pow_zero, Nat.mod_one, Nat.mod_one]
        omega
    | succ i =>
        rw [hnext]
        exact h i (Nat.lt_of_succ_lt_succ hi) (by rwa [hbyte i b y hb] at hfull)

/-- The checked loop stops exactly at a borrow into a byte 255; otherwise both
loops agree and subtract, the last borrow standing for the width. -/
theorem subBorrow_cases {n : ℕ} (left right : List.Vector UInt8 n) (borrow : UInt8)
    (hborrow : borrow.toNat ≤ 1) :
    (BorrowClear n (leNat left.toList) (leNat right.toList) borrow.toNat ∧
        subBorrowChecked left right borrow = .ok (subBorrowLoop left right borrow) ∧
        leNat (subBorrowLoop left right borrow).1.toList + leNat right.toList + borrow.toNat =
          leNat left.toList + 256 ^ n * (subBorrowLoop left right borrow).2.toNat) ∨
      (¬ BorrowClear n (leNat left.toList) (leNat right.toList) borrow.toNat ∧
        subBorrowChecked left right borrow = .error .overflow) := by
  induction n generalizing borrow with
  | zero =>
      refine Or.inl ⟨fun i hi ↦ (Nat.not_lt_zero i hi).elim, rfl, ?_⟩
      rw [List.Vector.eq_nil left, List.Vector.eq_nil right]
      change 0 + 0 + borrow.toNat = 0 + 256 ^ 0 * borrow.toNat
      omega
  | succ n ih =>
      have hl := left.head.toNat_lt
      have hr := right.head.toNat_lt
      rw [leNat_toList_succ left, leNat_toList_succ right, borrowClear_succ hl hr hborrow]
      unfold subBorrowChecked checkedAddU8
      by_cases hfits : right.head.toNat + borrow.toNat < 256
      · have hsum : (right.head + borrow).toNat = right.head.toNat + borrow.toNat := by
          rw [UInt8.toNat_add]
          omega
        have hless : (left.head < right.head + borrow) ↔
            left.head.toNat < right.head.toNat + borrow.toNat := by
          rw [UInt8.lt_iff_toNat_lt, hsum]
        have hnext : (if left.head < right.head + borrow then (1 : UInt8) else 0).toNat =
            if left.head.toNat < right.head.toNat + borrow.toNat then 1 else 0 := by
          simp only [hless]
          split <;> rfl
        have hdiff : (left.head - (right.head + borrow)).toNat =
            (256 - (right.head.toNat + borrow.toNat) + left.head.toNat) % 256 := by
          rw [UInt8.toNat_sub, hsum]
        have hstep := ih left.tail right.tail
          (if left.head < right.head + borrow then 1 else 0) (by rw [hnext]; split <;> omega)
        rw [hnext] at hstep
        simp only [hfits, if_true, true_and]
        rcases hstep with ⟨hclear, hchecked, hvalue⟩ | ⟨hdirty, hchecked⟩
        · refine Or.inl ⟨hclear, ?_, ?_⟩
          · rw [hchecked]
            rfl
          · rw [subBorrowLoop]
            simp only [List.Vector.toList_cons, leNat_cons, hdiff]
            rw [pow_succ', Nat.mul_assoc]
            generalize subBorrowLoop left.tail right.tail _ = rest at hvalue ⊢
            generalize 256 ^ n * rest.2.toNat = carried at hvalue ⊢
            split at hvalue <;> omega
        · refine Or.inr ⟨hdirty, ?_⟩
          rw [hchecked]
      · refine Or.inr ⟨fun h ↦ hfits h.1, ?_⟩
        rw [if_neg hfits]

/-- `subU256Le` with overflow checks. -/
def subU256LeChecked (left right : Hash256) : Except AddOverflow (Option Hash256) :=
  match subBorrowChecked left right 0 with
  | .error e => .error e
  | .ok out => .ok (if out.2 = 0 then some out.1 else none)

/-- Subtracting a number that is not greater is exact, or stops at an overflow. -/
theorem subU256Le_cases {left right : Hash256} (hle : leNat right.toList ≤ leNat left.toList) :
    (BorrowClear 32 (leNat left.toList) (leNat right.toList) 0 ∧
        ∃ diff, subU256LeChecked left right = .ok (some diff) ∧
          subU256Le left right = some diff ∧
          leNat diff.toList = leNat left.toList - leNat right.toList) ∨
      (¬ BorrowClear 32 (leNat left.toList) (leNat right.toList) 0 ∧
        subU256LeChecked left right = .error .overflow) := by
  rcases subBorrow_cases left right 0 (by decide) with
    ⟨hclear, hchecked, hvalue⟩ | ⟨hdirty, hchecked⟩
  · left
    have hlt := leNat_lt_pow (subBorrowLoop left right 0).1
    rw [UInt8.toNat_zero, Nat.add_zero] at hvalue
    generalize 256 ^ 32 = width at hlt hvalue
    have hzero : (subBorrowLoop left right 0).2 = 0 := by
      rw [← UInt8.toNat_inj, UInt8.toNat_zero]
      by_contra hne
      have hone := Nat.le_mul_of_pos_right width (Nat.pos_of_ne_zero hne)
      omega
    refine ⟨hclear, (subBorrowLoop left right 0).1, ?_, ?_, ?_⟩
    · unfold subU256LeChecked
      simp only [hchecked, hzero, if_true]
    · unfold subU256Le
      simp only [hzero, if_true]
    · rw [hzero, UInt8.toNat_zero, Nat.mul_zero] at hvalue
      omega
  · right
    refine ⟨hdirty, ?_⟩
    rw [subU256LeChecked, hchecked]

end Bitrst
