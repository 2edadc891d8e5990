import Bitrst.Primitives
import Bitrst.Support.LittleEndian

/-!
# 256-bit little-endian integers

The byte loops of `uint256.rs`.  Each loop over an array is a recursion over
its vector, the carry or borrow being the accumulator.
-/

namespace Bitrst

open Support

/-- `left.iter().rev().cmp(right.iter().rev())`. -/
def cmpLe (left right : Hash256) : Ordering :=
  cmpBytes left.toList.reverse right.toList.reverse

theorem cmpLe_eq_compare (left right : Hash256) :
    cmpLe left right = compare (leNat left.toList) (leNat right.toList) :=
  cmpBytes_reverse (by simp)

/-- The loop of `add_u256_le`; it returns as soon as the carry is used up. -/
def addCarryLoop : {n : ℕ} → List.Vector UInt8 n → UInt64 → Option (List.Vector UInt8 n)
  | 0, value, carry => if carry = 0 then some value else none
  | _ + 1, value, carry =>
      match checkedAddU64 value.head.toUInt64 carry with
      | none => none
      | some sum =>
          let carry := sum >>> 8
          if carry = 0 then some (sum.toUInt8 ::ᵥ value.tail)
          else (addCarryLoop value.tail carry).map fun rest ↦ sum.toUInt8 ::ᵥ rest

def addU256Le (value : Hash256) (addend : UInt64) : Option Hash256 :=
  addCarryLoop value addend

def notU256Le (value : Hash256) : Hash256 := value.map fun byte ↦ ~~~byte

def shlOneLoop : {n : ℕ} → List.Vector UInt8 n → UInt8 → List.Vector UInt8 n
  | 0, value, _ => value
  | _ + 1, value, carry =>
      ((value.head <<< 1) ||| carry) ::ᵥ shlOneLoop value.tail (value.head >>> 7)

def shlOneU256Le (value : Hash256) : Hash256 := shlOneLoop value 0

/-- `overflowing_sub` of the byte and the wrapped sum of the other byte and the borrow. -/
def subBorrowLoop : {n : ℕ} → List.Vector UInt8 n → List.Vector UInt8 n → UInt8 →
    List.Vector UInt8 n × UInt8
  | 0, left, _, borrow => (left, borrow)
  | _ + 1, left, right, borrow =>
      let subtrahend := right.head + borrow
      let rest := subBorrowLoop left.tail right.tail (if left.head < subtrahend then 1 else 0)
      ((left.head - subtrahend) ::ᵥ rest.1, rest.2)

def subU256Le (left right : Hash256) : Option Hash256 :=
  let out := subBorrowLoop left right 0
  if out.2 = 0 then some out.1 else none

def bitIsSet (value : Hash256) (bit : ℕ) : Bool :=
  value.toList.getD (bit / 8) 0 &&& (1 <<< UInt8.ofNat (bit % 8)) != 0

/-- `value[index] |= mask`. -/
def orByte (value : Hash256) (index : ℕ) (mask : UInt8) : Hash256 :=
  ⟨value.toList.modify index (· ||| mask), by simp⟩

def setBit (value : Hash256) (bit : ℕ) : Hash256 :=
  orByte value (bit / 8) (1 <<< UInt8.ofNat (bit % 8))

/-- The long division, from bit `n - 1` down to bit `0`. -/
def divLoop (dividend divisor : Hash256) : ℕ → Hash256 → Hash256 → Option Hash256
  | 0, quotient, _ => some quotient
  | bit + 1, quotient, remainder =>
      let shifted := shlOneU256Le remainder
      let remainder := if bitIsSet dividend bit then orByte shifted 0 1 else shifted
      if cmpLe divisor remainder ≠ .gt then
        match subU256Le remainder divisor with
        | none => none
        | some remainder => divLoop dividend divisor bit (setBit quotient bit) remainder
      else divLoop dividend divisor bit quotient remainder

def divU256Le (dividend divisor : Hash256) : Option Hash256 :=
  if divisor = zeroHash then none
  else if cmpLe dividend divisor = .lt then some zeroHash
  else divLoop dividend divisor 256 zeroHash zeroHash

/-- `(~threshold / (threshold + 1)) + 1`. -/
def workFromTarget (threshold : Hash256) : Option Hash256 :=
  if threshold = zeroHash then none
  else do
    let targetPlusOne ← addU256Le threshold 1
    let inverted := notU256Le threshold
    let quotient ← divU256Le inverted targetPlusOne
    addU256Le quotient 1

/-- Cumulative proof of work of a branch. -/
structure ChainWork where
  bytes : Hash256
  deriving DecidableEq

namespace ChainWork

/-- The work as a number; the order of `ChainWork` is the order of these numbers. -/
def toNat (work : ChainWork) : ℕ := leNat work.bytes.toList

def zero : ChainWork := ⟨zeroHash⟩

/-- Addition with a `u16` carry; a carry out of the last byte is dropped. -/
def add (left right : ChainWork) : ChainWork := ⟨addWithCarry left.bytes right.bytes 0⟩

/-- `left <= right` through `Ord for ChainWork`. -/
def le (left right : ChainWork) : Bool := cmpLe left.bytes right.bytes != .gt

@[simp] theorem le_iff {left right : ChainWork} : left.le right ↔ left.toNat ≤ right.toNat := by
  rw [le, cmpLe_eq_compare, bne_iff_ne, compare_le_iff_le]
  rfl

theorem toNat_lt (work : ChainWork) : work.toNat < 2 ^ 256 := by
  have h := leNat_lt work.bytes.toList
  rw [List.Vector.toList_length] at h
  unfold toNat
  omega

theorem toNat_add (left right : ChainWork) :
    (left.add right).toNat = (left.toNat + right.toNat) % 2 ^ 256 := by
  rw [toNat, add, leNat_addWithCarry _ _ _ (by decide)]
  rfl

/-- Without overflow of 256 bits addition is exact. -/
theorem toNat_add_of_lt {left right : ChainWork} (h : left.toNat + right.toNat < 2 ^ 256) :
    (left.add right).toNat = left.toNat + right.toNat := by
  rw [toNat_add, Nat.mod_eq_of_lt h]

theorem toNat_injective {left right : ChainWork} (h : left.toNat = right.toNat) :
    left = right := by
  cases left with
  | mk l =>
    cases right with
    | mk r =>
      have hlist : l.toList = r.toList := leNat_injective (by simp) h
      exact congrArg mk (List.Vector.toList_injective hlist)

end ChainWork

end Bitrst
