import Mathlib.Data.Nat.Find
import Mathlib.Tactic.Ring

/-!
# Natural numbers as short floats

A float is an exponent and a mantissa below a bound, and denotes the mantissa
scaled by a power of the base, rounded down.  The encoding takes the least
exponent under which a number fits, and loses the digits below its mantissa: what it
decodes to is the greatest number of the format that is not larger.
-/

namespace Support

/-- Floats in `base` with mantissas of `digits` digits that stay below `bound`. -/
structure FloatFormat where
  base : ℕ
  digits : ℕ
  bound : ℕ
  one_lt_base : 1 < base
  bound_pos : 0 < bound
  base_dvd_bound : base ∣ bound

namespace FloatFormat

variable (format : FloatFormat)

/-- The number that an exponent and a mantissa denote. -/
def decode (exponent mantissa : ℕ) : ℕ :=
  mantissa * format.base ^ exponent / format.base ^ format.digits

/-- The number, with its mantissa below the bound, under the exponent. -/
def Fits (n exponent : ℕ) : Prop :=
  n * format.base ^ format.digits < format.bound * format.base ^ exponent

instance (n exponent : ℕ) : Decidable (format.Fits n exponent) :=
  inferInstanceAs (Decidable (_ < _))

theorem base_pos : 0 < format.base := Nat.zero_lt_of_lt format.one_lt_base

theorem pow_pos (k : ℕ) : 0 < format.base ^ k := Nat.pow_pos format.base_pos

theorem exists_fits (n : ℕ) : ∃ exponent, format.Fits n exponent := by
  refine ⟨n * format.base ^ format.digits, ?_⟩
  calc n * format.base ^ format.digits
      < format.base ^ (n * format.base ^ format.digits) := Nat.lt_pow_self format.one_lt_base
    _ ≤ format.bound * format.base ^ (n * format.base ^ format.digits) :=
        Nat.le_mul_of_pos_left _ format.bound_pos

/-- The least exponent under which the number fits. -/
def exponentOf (n : ℕ) : ℕ := Nat.find (format.exists_fits n)

/-- The leading digits of the number. -/
def mantissaOf (n : ℕ) : ℕ := n * format.base ^ format.digits / format.base ^ format.exponentOf n

/-- What the encoding of a number denotes. -/
def roundDown (n : ℕ) : ℕ := format.decode (format.exponentOf n) (format.mantissaOf n)

/-- Some float denotes the number. -/
def Represents (value : ℕ) : Prop :=
  ∃ exponent mantissa, mantissa < format.bound ∧ value = format.decode exponent mantissa

variable {format} {n m exponent : ℕ}

theorem fits_exponentOf (n : ℕ) : format.Fits n (format.exponentOf n) :=
  Nat.find_spec (format.exists_fits n)

theorem exponentOf_le (h : format.Fits n exponent) : format.exponentOf n ≤ exponent :=
  Nat.find_min' (format.exists_fits n) h

theorem not_fits_of_lt (h : exponent < format.exponentOf n) : ¬ format.Fits n exponent :=
  Nat.find_min (format.exists_fits n) h

theorem Fits.mono (h : format.Fits n exponent) (hle : m ≤ n) : format.Fits m exponent := by
  unfold Fits at h ⊢
  exact Nat.lt_of_le_of_lt (Nat.mul_le_mul_right _ hle) h

/-- An exponent that fits while the one below does not is the least one. -/
theorem exponentOf_eq (hfits : format.Fits n exponent)
    (hleast : ∀ smaller, exponent = smaller + 1 → ¬ format.Fits n smaller) :
    format.exponentOf n = exponent := by
  refine Nat.le_antisymm (exponentOf_le hfits) (Nat.le_of_not_lt fun hlt ↦ ?_)
  obtain ⟨gap, hgap⟩ := Nat.exists_eq_add_of_lt hlt
  apply hleast _ hgap
  have hpow : format.base ^ format.exponentOf n ≤ format.base ^ (format.exponentOf n + gap) :=
    Nat.pow_le_pow_right format.base_pos (Nat.le_add_right _ _)
  exact Nat.lt_of_lt_of_le (fits_exponentOf n) (Nat.mul_le_mul_left _ hpow)

theorem mantissaOf_lt (n : ℕ) : format.mantissaOf n < format.bound := by
  unfold mantissaOf
  exact (Nat.div_lt_iff_lt_mul (format.pow_pos _)).mpr (fits_exponentOf n)

/-- The encoding is normalised: a further digit would not fit below the bound. -/
theorem bound_le_mantissaOf (h : format.exponentOf n = exponent + 1) :
    format.bound ≤ format.base * format.mantissaOf n := by
  obtain ⟨c, hc⟩ := format.base_dvd_bound
  have hunfit : ¬ format.Fits n exponent := not_fits_of_lt (by omega)
  unfold Fits at hunfit
  rw [Nat.not_lt] at hunfit
  rw [hc]
  apply Nat.mul_le_mul_left
  unfold mantissaOf
  rw [h, Nat.le_div_iff_mul_le (format.pow_pos _)]
  calc c * format.base ^ (exponent + 1) = format.bound * format.base ^ exponent := by
        rw [hc, pow_succ]
        ring
    _ ≤ n * format.base ^ format.digits := hunfit

theorem represents_roundDown (n : ℕ) : format.Represents (format.roundDown n) :=
  ⟨_, _, mantissaOf_lt n, rfl⟩

/-! ## Rounding -/

/-- Under a small exponent all digits are kept. -/
theorem roundDown_of_le (h : format.exponentOf n ≤ format.digits) : format.roundDown n = n := by
  obtain ⟨gap, hgap⟩ := Nat.exists_eq_add_of_le h
  have hexact : format.mantissaOf n * format.base ^ format.exponentOf n =
      n * format.base ^ format.digits := by
    unfold mantissaOf
    apply Nat.div_mul_cancel
    rw [hgap, pow_add]
    exact Dvd.dvd.mul_left (Nat.dvd_mul_right _ _) n
  unfold roundDown decode
  rw [hexact]
  exact Nat.mul_div_cancel _ (format.pow_pos _)

/-- Under a large exponent the digits below the mantissa are cleared. -/
theorem roundDown_of_ge {gap : ℕ} (h : format.exponentOf n = format.digits + gap) :
    format.roundDown n = n / format.base ^ gap * format.base ^ gap := by
  have hmantissa : format.mantissaOf n = n / format.base ^ gap := by
    unfold mantissaOf
    rw [h, pow_add, Nat.mul_comm n, Nat.mul_div_mul_left _ _ (format.pow_pos _)]
  unfold roundDown decode
  rw [hmantissa, h, pow_add]
  calc n / format.base ^ gap * (format.base ^ format.digits * format.base ^ gap) /
        format.base ^ format.digits
      = n / format.base ^ gap * format.base ^ gap * format.base ^ format.digits /
          format.base ^ format.digits := by
        congr 1
        ring
    _ = n / format.base ^ gap * format.base ^ gap := Nat.mul_div_cancel _ (format.pow_pos _)

/-- The digits below the mantissa are cleared. -/
theorem roundDown_eq (n : ℕ) :
    format.roundDown n = n / format.base ^ (format.exponentOf n - format.digits) *
      format.base ^ (format.exponentOf n - format.digits) := by
  rcases Nat.le_total (format.exponentOf n) format.digits with hsmall | hlarge
  · rw [roundDown_of_le hsmall, Nat.sub_eq_zero_of_le hsmall, pow_zero, Nat.div_one, Nat.mul_one]
  · exact roundDown_of_ge (Nat.add_sub_cancel' hlarge).symm

theorem roundDown_le (n : ℕ) : format.roundDown n ≤ n := by
  rcases Nat.le_total (format.exponentOf n) format.digits with hsmall | hlarge
  · exact (roundDown_of_le hsmall).le
  · obtain ⟨gap, hgap⟩ := Nat.exists_eq_add_of_le hlarge
    rw [roundDown_of_ge hgap]
    exact Nat.div_mul_le_self _ _

/-- Multiples of the last place that is kept are not rounded past. -/
theorem le_roundDown_of_dvd {gap : ℕ} (h : format.exponentOf n = format.digits + gap)
    (hdvd : format.base ^ gap ∣ m) (hle : m ≤ n) : m ≤ format.roundDown n := by
  obtain ⟨k, rfl⟩ := hdvd
  rw [roundDown_of_ge h, Nat.mul_comm]
  apply Nat.mul_le_mul_right
  rw [Nat.le_div_iff_mul_le (format.pow_pos _), Nat.mul_comm]
  exact hle

/-- The bound under the exponent below is still reached after rounding. -/
theorem bound_le_roundDown {gap : ℕ} (h : format.exponentOf n = format.digits + (gap + 1)) :
    format.bound * format.base ^ gap ≤ format.roundDown n := by
  refine le_roundDown_of_dvd h ?_ ?_
  · rw [pow_succ']
    exact Nat.mul_dvd_mul_right format.base_dvd_bound _
  · have hunfit : ¬ format.Fits n (format.digits + gap) := not_fits_of_lt (by omega)
    unfold Fits at hunfit
    rw [pow_add, Nat.not_lt] at hunfit
    refine Nat.le_of_mul_le_mul_right ?_ (format.pow_pos format.digits)
    calc format.bound * format.base ^ gap * format.base ^ format.digits
        = format.bound * (format.base ^ format.digits * format.base ^ gap) := by ring
      _ ≤ n * format.base ^ format.digits := hunfit

/-- The encoding denotes the greatest number of the format that is not larger. -/
theorem le_roundDown {value : ℕ} (hvalue : format.Represents value) (hle : value ≤ n) :
    value ≤ format.roundDown n := by
  obtain ⟨exponent, mantissa, hmantissa, rfl⟩ := hvalue
  rcases Nat.le_total (format.exponentOf n) format.digits with hsmall | hlarge
  · rwa [roundDown_of_le hsmall]
  · obtain ⟨gap, hgap⟩ := Nat.exists_eq_add_of_le hlarge
    rcases Nat.lt_or_ge exponent (format.exponentOf n) with hbelow | habove
    · -- A smaller exponent: the float is below the bound that the rounding still reaches.
      cases gap with
      | zero =>
          rw [roundDown_of_le (by omega)]
          exact hle
      | succ gap =>
          refine Nat.le_trans ?_ (bound_le_roundDown hgap)
          unfold decode
          apply Nat.div_le_of_le_mul
          calc mantissa * format.base ^ exponent
              ≤ format.bound * format.base ^ (format.digits + gap) :=
                Nat.mul_le_mul hmantissa.le
                  (Nat.pow_le_pow_right format.base_pos (by omega))
            _ = format.base ^ format.digits * (format.bound * format.base ^ gap) := by
                rw [pow_add]
                ring
    · -- A larger exponent: the float is a multiple of the last place that is kept.
      refine le_roundDown_of_dvd hgap ?_ hle
      obtain ⟨more, hmore⟩ := Nat.exists_eq_add_of_le habove
      have hsplit : mantissa * format.base ^ exponent =
          format.base ^ gap * (mantissa * format.base ^ more) * format.base ^ format.digits := by
        rw [hmore, hgap, pow_add, pow_add]
        ring
      unfold decode
      rw [hsplit, Nat.mul_div_cancel _ (format.pow_pos _)]
      exact Nat.dvd_mul_right _ _

theorem roundDown_mono (h : n ≤ m) : format.roundDown n ≤ format.roundDown m :=
  le_roundDown (represents_roundDown n) ((roundDown_le n).trans h)

/-- Numbers of the format are kept. -/
theorem roundDown_of_represents (h : format.Represents n) : format.roundDown n = n :=
  Nat.le_antisymm (roundDown_le n) (le_roundDown h (Nat.le_refl n))

/-- Rounding keeps the exponent of the encoding. -/
theorem exponentOf_roundDown (n : ℕ) :
    format.exponentOf (format.roundDown n) = format.exponentOf n := by
  rcases Nat.le_total (format.exponentOf n) format.digits with hsmall | hlarge
  · rw [roundDown_of_le hsmall]
  · obtain ⟨gap, hgap⟩ := Nat.exists_eq_add_of_le hlarge
    refine exponentOf_eq ((fits_exponentOf n).mono (roundDown_le n)) fun smaller hsmaller hfits ↦ ?_
    cases gap with
    | zero =>
        rw [roundDown_of_le (by omega)] at hfits
        exact not_fits_of_lt (by omega) hfits
    | succ gap =>
        have hreached := bound_le_roundDown hgap
        have hexponent : smaller = format.digits + gap := by omega
        unfold Fits at hfits
        rw [hexponent, pow_add] at hfits
        refine absurd hfits (Nat.not_lt.mpr ?_)
        calc format.bound * (format.base ^ format.digits * format.base ^ gap)
            = format.bound * format.base ^ gap * format.base ^ format.digits := by ring
          _ ≤ format.roundDown n * format.base ^ format.digits :=
              Nat.mul_le_mul_right _ hreached

/-- Rounding keeps the mantissa of the encoding. -/
theorem mantissaOf_roundDown (n : ℕ) :
    format.mantissaOf (format.roundDown n) = format.mantissaOf n := by
  rcases Nat.le_total (format.exponentOf n) format.digits with hsmall | hlarge
  · rw [roundDown_of_le hsmall]
  · obtain ⟨gap, hgap⟩ := Nat.exists_eq_add_of_le hlarge
    unfold mantissaOf
    rw [exponentOf_roundDown, roundDown_of_ge hgap, hgap, pow_add]
    rw [Nat.mul_comm _ (format.base ^ format.digits),
      Nat.mul_div_mul_left _ _ (format.pow_pos _), Nat.mul_div_cancel _ (format.pow_pos _),
      Nat.mul_comm n, Nat.mul_div_mul_left _ _ (format.pow_pos _)]

end FloatFormat

end Support
