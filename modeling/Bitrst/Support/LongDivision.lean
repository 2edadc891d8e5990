import Mathlib.Data.Nat.Basic
import Mathlib.Tactic.Ring

/-!
# Binary long division

Division from the top bit of the dividend down: when a bit is shifted into the
remainder, the quotient of the bits read so far gets a further bit, which is set
when the divisor fits into the remainder.
-/

namespace Support.LongDivision

variable {dividend divisor : ℕ}

/-- The remainder of the bits above `bit`, with the next bit shifted in. -/
def shifted (dividend divisor bit : ℕ) : ℕ :=
  2 * (dividend / 2 ^ (bit + 1) % divisor) + dividend / 2 ^ bit % 2

/-- The bits from `bit` on are those above and the next one. -/
theorem div_two_pow (dividend bit : ℕ) :
    dividend / 2 ^ bit = 2 * (dividend / 2 ^ (bit + 1)) + dividend / 2 ^ bit % 2 := by
  rw [Nat.pow_succ, ← Nat.div_div_eq_div_mul]
  omega

theorem shifted_lt (hdivisor : 0 < divisor) (bit : ℕ) :
    shifted dividend divisor bit < 2 * divisor := by
  have hremainder := Nat.mod_lt (dividend / 2 ^ (bit + 1)) hdivisor
  have hbit := Nat.mod_lt (dividend / 2 ^ bit) Nat.two_pos
  unfold shifted
  omega

/-- The bits from `bit` on, split at the quotient of the bits above. -/
theorem div_eq_shifted (dividend divisor bit : ℕ) :
    dividend / 2 ^ bit =
      divisor * (2 * (dividend / 2 ^ (bit + 1) / divisor)) + shifted dividend divisor bit := by
  have hsplit := Nat.div_add_mod (dividend / 2 ^ (bit + 1)) divisor
  unfold shifted
  calc dividend / 2 ^ bit
      = 2 * (dividend / 2 ^ (bit + 1)) + dividend / 2 ^ bit % 2 := div_two_pow dividend bit
    _ = 2 * (divisor * (dividend / 2 ^ (bit + 1) / divisor) +
          dividend / 2 ^ (bit + 1) % divisor) + dividend / 2 ^ bit % 2 := by rw [hsplit]
    _ = _ := by ring

/-- The divisor fits: the bit of the quotient is set, and the divisor is subtracted. -/
theorem step_fits (hdivisor : 0 < divisor) {bit : ℕ}
    (hfits : divisor ≤ shifted dividend divisor bit) :
    dividend / 2 ^ bit / divisor = 2 * (dividend / 2 ^ (bit + 1) / divisor) + 1 ∧
      dividend / 2 ^ bit % divisor = shifted dividend divisor bit - divisor := by
  apply (Nat.div_mod_unique hdivisor).mpr
  have hlt : shifted dividend divisor bit < 2 * divisor := shifted_lt hdivisor bit
  refine ⟨?_, by omega⟩
  have hsplit := div_eq_shifted dividend divisor bit
  have hone : divisor * (2 * (dividend / 2 ^ (bit + 1) / divisor) + 1) =
      divisor * (2 * (dividend / 2 ^ (bit + 1) / divisor)) + divisor := by ring
  omega

/-- The divisor does not fit: the bit of the quotient is clear. -/
theorem step_exceeds (hdivisor : 0 < divisor) {bit : ℕ}
    (hexceeds : ¬ divisor ≤ shifted dividend divisor bit) :
    dividend / 2 ^ bit / divisor = 2 * (dividend / 2 ^ (bit + 1) / divisor) ∧
      dividend / 2 ^ bit % divisor = shifted dividend divisor bit := by
  apply (Nat.div_mod_unique hdivisor).mpr
  refine ⟨?_, Nat.lt_of_not_le hexceeds⟩
  have hsplit := div_eq_shifted dividend divisor bit
  omega

/-- A dividend below the divisor is never reached by it. -/
theorem shifted_of_lt (hlt : dividend < divisor) (bit : ℕ) :
    ¬ divisor ≤ shifted dividend divisor bit := by
  have habove : dividend / 2 ^ (bit + 1) < divisor := (Nat.div_le_self _ _).trans_lt hlt
  have hbits := div_two_pow dividend bit
  have hle := Nat.div_le_self dividend (2 ^ bit)
  unfold shifted
  rw [Nat.mod_eq_of_lt habove]
  omega

end Support.LongDivision
