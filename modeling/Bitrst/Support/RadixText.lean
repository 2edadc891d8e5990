import Mathlib.Data.List.TakeWhile
import Mathlib.Data.Nat.Digits.Lemmas

/-!
# Numerals in another base

A list of digits, the most significant one first, is written in another base.
Zeros in front stand for themselves, so that no list is lost: between the
digits of two bases the change is a bijection.
-/

namespace Support

/-- The zeros in front stay, and the number behind them is written in the other base. -/
def changeBase (source target : ℕ) (digits : List ℕ) : List ℕ :=
  digits.takeWhile (· == 0) ++
    (Nat.digits target (Nat.ofDigits source (digits.dropWhile (· == 0)).reverse)).reverse

/-- There is no zero in front. -/
def Leading (digits : List ℕ) : Prop := ∀ h : digits ≠ [], digits.head h ≠ 0

variable {source target : ℕ} {digits : List ℕ}

theorem leading_dropWhile (digits : List ℕ) : Leading (digits.dropWhile (· == 0)) := by
  intro h
  have hhead := List.head_dropWhile_not (· == 0) h
  simpa using hhead

theorem leading_digits (base n : ℕ) : Leading (Nat.digits base n).reverse := by
  intro h
  rw [List.head_reverse]
  apply Nat.getLast_digit_ne_zero
  rintro rfl
  simp at h

namespace Leading

theorem takeWhile (h : Leading digits) : digits.takeWhile (· == 0) = [] := by
  cases digits with
  | nil => rfl
  | cons digit digits =>
      have hhead : digit ≠ 0 := h (List.cons_ne_nil _ _)
      exact List.takeWhile_cons_of_neg (by simpa using hhead)

theorem dropWhile (h : Leading digits) : digits.dropWhile (· == 0) = digits := by
  have hall := List.takeWhile_append_dropWhile (p := (· == 0)) (l := digits)
  rwa [h.takeWhile, List.nil_append] at hall

theorem digits_ofDigits (h : Leading digits) (hbase : 1 < source)
    (hdigits : ∀ digit ∈ digits, digit < source) :
    Nat.digits source (Nat.ofDigits source digits.reverse) = digits.reverse := by
  apply Nat.digits_ofDigits source hbase
  · exact fun digit hdigit ↦ hdigits digit (List.mem_reverse.mp hdigit)
  · intro hne
    rw [List.getLast_reverse]
    exact h _

end Leading

theorem changeBase_lt (htarget : 1 < target) {digit : ℕ}
    (h : digit ∈ changeBase source target digits) : digit < target := by
  rcases List.mem_append.mp h with hzero | hdigit
  · have heq : digit = 0 := by simpa using List.mem_takeWhile_imp hzero
    omega
  · exact Nat.digits_lt_base htarget (List.mem_reverse.mp hdigit)

/-- The way back leads to the digits again. -/
theorem changeBase_changeBase (hsource : 1 < source) (hdigits : ∀ digit ∈ digits, digit < source) :
    changeBase target source (changeBase source target digits) = digits := by
  have hzeros (digit : ℕ) (hdigit : digit ∈ digits.takeWhile (· == 0)) : digit == 0 :=
    List.mem_takeWhile_imp (p := (· == 0)) hdigit
  have hleading := leading_digits target (Nat.ofDigits source (digits.dropWhile (· == 0)).reverse)
  have htake : (changeBase source target digits).takeWhile (· == 0) =
      digits.takeWhile (· == 0) := by
    rw [changeBase, List.takeWhile_append_of_pos hzeros, hleading.takeWhile, List.append_nil]
  have hdrop : (changeBase source target digits).dropWhile (· == 0) =
      (Nat.digits target
        (Nat.ofDigits source (digits.dropWhile (· == 0)).reverse)).reverse := by
    rw [changeBase, List.dropWhile_append_of_pos hzeros, hleading.dropWhile]
  have hrest (digit : ℕ) (hdigit : digit ∈ digits.dropWhile (· == 0)) : digit < source :=
    hdigits digit ((List.dropWhile_suffix _).subset hdigit)
  rw [changeBase, htake, hdrop, List.reverse_reverse, Nat.ofDigits_digits,
    (leading_dropWhile digits).digits_ofDigits hsource hrest, List.reverse_reverse,
    List.takeWhile_append_dropWhile]

end Support
