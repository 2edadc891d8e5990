import Mathlib.Data.Nat.Digits.Lemmas
import Mathlib.Data.Vector.Basic
import Mathlib.Order.Compare
import Mathlib.Tactic.Ring

/-!
# Little-endian byte strings as natural numbers

The value of a byte string, schoolbook addition with a carry, and the
comparison that walks two strings of one length from the most significant byte.
-/

namespace Support

/-- The number a byte string denotes, least significant byte first. -/
def leNat (bytes : List UInt8) : ℕ := Nat.ofDigits 256 (bytes.map UInt8.toNat)

@[simp] theorem leNat_nil : leNat [] = 0 := rfl

@[simp] theorem leNat_cons (b : UInt8) (rest : List UInt8) :
    leNat (b :: rest) = b.toNat + 256 * leNat rest := by
  simp [leNat, Nat.ofDigits_cons]

theorem leNat_lt (bytes : List UInt8) : leNat bytes < 256 ^ bytes.length := by
  induction bytes with
  | nil => simp
  | cons b rest ih =>
      have hb := b.toNat_lt
      rw [leNat_cons, List.length_cons, pow_succ]
      omega

theorem leNat_injective {xs ys : List UInt8} (hlen : xs.length = ys.length)
    (h : leNat xs = leNat ys) : xs = ys := by
  induction xs generalizing ys with
  | nil => simpa using hlen.symm
  | cons x xs ih =>
      cases ys with
      | nil => simp at hlen
      | cons y ys =>
          rw [leNat_cons, leNat_cons] at h
          have hx := x.toNat_lt
          have hy := y.toNat_lt
          have hhead : x = y := UInt8.toNat_inj.mp (by omega)
          have htail : xs = ys := ih (by simpa using hlen) (by omega)
          rw [hhead, htail]

/-! ## Addition -/

/-- Byte-wise addition with an incoming carry; the outgoing carry is dropped. -/
def addWithCarry : {n : ℕ} → List.Vector UInt8 n → List.Vector UInt8 n → UInt16 →
    List.Vector UInt8 n
  | 0, _, _, _ => List.Vector.nil
  | _ + 1, left, right, carry =>
      let sum := left.head.toUInt16 + right.head.toUInt16 + carry
      sum.toUInt8 ::ᵥ addWithCarry left.tail right.tail (sum >>> 8)

theorem leNat_toList_succ {n : ℕ} (v : List.Vector UInt8 (n + 1)) :
    leNat v.toList = v.head.toNat + 256 * leNat v.tail.toList := by
  conv_lhs => rw [← List.Vector.cons_head_tail v]
  rw [List.Vector.toList_cons, leNat_cons]

/-- Addition with carry is addition modulo the width. -/
theorem leNat_addWithCarry {n : ℕ} (left right : List.Vector UInt8 n) (carry : UInt16)
    (hcarry : carry.toNat ≤ 1) :
    leNat (addWithCarry left right carry).toList =
      (leNat left.toList + leNat right.toList + carry.toNat) % 256 ^ n := by
  induction n generalizing carry with
  | zero =>
      rw [Nat.pow_zero, Nat.mod_one]
      rfl
  | succ n ih =>
      have hl := left.head.toNat_lt
      have hr := right.head.toNat_lt
      have hsum : (left.head.toUInt16 + right.head.toUInt16 + carry).toNat =
          left.head.toNat + right.head.toNat + carry.toNat := by
        simp only [UInt16.toNat_add, UInt8.toNat_toUInt16]
        omega
      have hshift : ((left.head.toUInt16 + right.head.toUInt16 + carry) >>> 8).toNat =
          (left.head.toNat + right.head.toNat + carry.toNat) / 256 := by
        rw [UInt16.toNat_shiftRight, hsum]
        simp [Nat.shiftRight_eq_div_pow]
      rw [leNat_toList_succ left, leNat_toList_succ right, addWithCarry]
      rw [List.Vector.toList_cons, leNat_cons, UInt16.toNat_toUInt8, hsum,
        ih left.tail right.tail _ (by rw [hshift]; omega), hshift, pow_succ' 256 n]
      generalize left.head.toNat = a at *
      generalize right.head.toNat = b at *
      generalize leNat left.tail.toList = x
      generalize leNat right.tail.toList = y
      rw [show a + 256 * x + (b + 256 * y) + carry.toNat =
        (a + b + carry.toNat) + 256 * (x + y) by ring, Nat.mod_mul]
      congr 1
      · omega
      · congr 2
        omega

/-! ## Comparison -/

/-- Lexicographic comparison of byte strings, as slice iterators compare. -/
def cmpBytes : List UInt8 → List UInt8 → Ordering
  | [], [] => .eq
  | [], _ :: _ => .lt
  | _ :: _, [] => .gt
  | x :: xs, y :: ys => (compare x.toNat y.toNat).then (cmpBytes xs ys)

theorem cmpBytes_append_singleton {xs ys : List UInt8} (hlen : xs.length = ys.length)
    (x y : UInt8) :
    cmpBytes (xs ++ [x]) (ys ++ [y]) = (cmpBytes xs ys).then (compare x.toNat y.toNat) := by
  induction xs generalizing ys with
  | nil =>
      have hys : ys = [] := by simpa using hlen.symm
      subst hys
      simp [cmpBytes, Ordering.then]
      cases compare x.toNat y.toNat <;> rfl
  | cons a xs ih =>
      cases ys with
      | nil => simp at hlen
      | cons b ys =>
          have htail : cmpBytes (xs ++ [x]) (ys ++ [y]) =
              (cmpBytes xs ys).then (compare x.toNat y.toNat) := ih (by simpa using hlen)
          simp only [List.cons_append, cmpBytes, htail]
          cases compare a.toNat b.toNat <;> rfl

theorem compare_digit {x y : ℕ} (hx : x < 256) (hy : y < 256) (X Y : ℕ) :
    compare (x + 256 * X) (y + 256 * Y) = (compare X Y).then (compare x y) := by
  rcases lt_trichotomy X Y with h | h | h
  · rw [compare_lt_iff_lt.mpr h, compare_lt_iff_lt.mpr (by omega)]
    rfl
  · subst h
    rw [compare_eq_iff_eq.mpr rfl]
    rcases lt_trichotomy x y with h | h | h
    · rw [compare_lt_iff_lt.mpr h, compare_lt_iff_lt.mpr (by omega)]
      rfl
    · subst h
      rw [compare_eq_iff_eq.mpr rfl, compare_eq_iff_eq.mpr rfl]
      rfl
    · rw [compare_gt_iff_gt.mpr h, compare_gt_iff_gt.mpr (by omega)]
      rfl
  · rw [compare_gt_iff_gt.mpr h, compare_gt_iff_gt.mpr (by omega)]
    rfl

/-- Walking two equally long strings from the top byte compares their values. -/
theorem cmpBytes_reverse {xs ys : List UInt8} (hlen : xs.length = ys.length) :
    cmpBytes xs.reverse ys.reverse = compare (leNat xs) (leNat ys) := by
  induction xs generalizing ys with
  | nil =>
      have hys : ys = [] := by simpa using hlen.symm
      subst hys
      rfl
  | cons x xs ih =>
      cases ys with
      | nil => simp at hlen
      | cons y ys =>
          have htail : xs.length = ys.length := by simpa using hlen
          rw [List.reverse_cons, List.reverse_cons,
            cmpBytes_append_singleton (by simpa using htail), ih htail, leNat_cons, leNat_cons,
            compare_digit x.toNat_lt y.toNat_lt]

end Support
