import InferenceEngine.Number.Double
import Mathlib.Algebra.Order.Ring.Nat

/-!
# Large integers as doubles

A double has 53 significant bits, so of the integers that need all 64 bits of a word only the
multiples of `2048` are doubles. `Double.toCount_ofInt` says what remains of such an integer when it
is held as a double and read as a 64-bit natural number again.
-/

namespace InferenceEngine

namespace Binary

theorem roundQuotient_bounds (num den : Nat) :
    num / den ≤ roundQuotient num den ∧ roundQuotient num den ≤ num / den + 1 := by
  rw [roundQuotient]
  split <;> omega

end Binary

namespace Double

open Binary

/-- The distance of neighbouring doubles between `2 ^ 63` and `2 ^ 64`. -/
def spacing : Nat := 2048

variable {n steps : Nat}

/-- Rounding to a multiple of the spacing stays between `2 ^ 63` and `2 ^ 64`. -/
theorem steps_bounds (hlow : 2 ^ 63 ≤ n) (hhigh : n < 2 ^ 64) :
    2 ^ 52 ≤ roundQuotient n spacing ∧ roundQuotient n spacing ≤ 2 ^ 53 := by
  have hsteps := roundQuotient_bounds n spacing
  have hquotient : 2 ^ 52 ≤ n / spacing ∧ n / spacing < 2 ^ 53 := by
    rw [spacing]
    omega
  omega

/-- The pattern of the double nearest to an integer in this range. -/
theorem nearest_eq (hlow : 2 ^ 63 ≤ n) (hhigh : n < 2 ^ 64) :
    double.nearest n 1 = 1085 * 2 ^ 52 + roundQuotient n spacing := by
  have hlog : n.log2 = 63 := (Nat.log2_eq_iff (by omega)).mpr ⟨hlow, hhigh⟩
  have hone : Nat.log2 1 = 0 := by decide
  have htop : ¬ n * Nat.pow 2 (-(63 : Int)).toNat < 1 * Nat.pow 2 (63 : Int).toNat := by
    show ¬ n * 2 ^ 0 < 1 * 2 ^ 63
    omega
  have hsteps := steps_bounds hlow hhigh
  have hfinite : 1085 * 2 ^ 52 + roundQuotient n spacing ≤ double.infinity := by
    show _ ≤ (2 ^ 11 - 1) * 2 ^ 52
    omega
  rw [Format.nearest, if_neg (by omega : n ≠ 0), hlog, hone]
  dsimp only
  rw [show ((63 : Nat) : Int) - ((0 : Nat) : Int) = 63 from rfl, if_neg htop]
  show min (1085 * 2 ^ 52 + roundQuotient (n * 2 ^ 0) (1 * 2 ^ 11)) double.infinity = _
  rw [Nat.pow_zero, Nat.mul_one, Nat.one_mul]
  exact Nat.min_eq_left hfinite

theorem magnitude_eq (hhigh : steps ≤ 2 ^ 53) :
    double.magnitude (1085 * 2 ^ 52 + steps) = 1085 * 2 ^ 52 + steps := by
  refine Nat.mod_eq_of_lt ?_
  show _ < 2 ^ 63
  omega

/-- The pattern of so many steps is a positive finite number. -/
theorem classes_eq (hhigh : steps ≤ 2 ^ 53) :
    double.isNaN (1085 * 2 ^ 52 + steps) = false ∧
      double.isNegative (1085 * 2 ^ 52 + steps) = false ∧
        double.isFinite (1085 * 2 ^ 52 + steps) = true := by
  have hinfinity : double.infinity = (2 ^ 11 - 1) * 2 ^ 52 := rfl
  have hsign : double.sign = 2 ^ 63 := rfl
  rw [Format.isNaN, Format.isNegative, Format.isFinite, magnitude_eq hhigh, hinfinity, hsign]
  refine ⟨decide_eq_false ?_, decide_eq_false ?_, decide_eq_true ?_⟩ <;> omega

/-- Its value is so many times the spacing. The last step is the first one of the next binade, where
doubles are twice as far apart. -/
theorem dyadic_eq (hlow : 2 ^ 52 ≤ steps) (hhigh : steps ≤ 2 ^ 53) :
    (double.dyadic (1085 * 2 ^ 52 + steps)).num = spacing * steps ∧
      (double.dyadic (1085 * 2 ^ 52 + steps)).den = 1 := by
  obtain rfl | hlt := Nat.eq_or_lt_of_le hhigh
  · decide
  have hexponent : (1085 * 2 ^ 52 + steps) / Nat.pow 2 double.fraction = 1086 := by
    show _ / 2 ^ 52 = 1086
    omega
  have hfraction : Nat.pow 2 double.fraction + (1085 * 2 ^ 52 + steps) % Nat.pow 2 double.fraction =
      steps := by
    show 2 ^ 52 + _ % 2 ^ 52 = steps
    omega
  have hdyadic : double.dyadic (1085 * 2 ^ 52 + steps) = ⟨steps, 11⟩ := by
    rw [Format.dyadic, magnitude_eq hhigh, hexponent, if_neg (by decide), hfraction]
    rfl
  rw [hdyadic]
  exact ⟨Nat.mul_comm _ _, rfl⟩

/-- **A large integer that is held as a double** is read as the nearest multiple of the spacing,
moved into the range of 64-bit natural numbers. -/
theorem toCount_ofInt (hlow : 2 ^ 63 ≤ n) (hhigh : n < 2 ^ 64) :
    (ofInt n).toCount = UInt64.ofNat (min (spacing * roundQuotient n spacing) (UInt64.size - 1)) := by
  obtain ⟨hsteps, hsteps'⟩ := steps_bounds hlow hhigh
  have hbits : (ofInt n).bits.toNat = 1085 * 2 ^ 52 + roundQuotient n spacing := by
    show (UInt64.ofNat (0 + double.nearest n 1)).toNat = _
    rw [Nat.zero_add, nearest_eq hlow hhigh]
    exact UInt64.toNat_ofNat_of_lt' (by show _ < 2 ^ 64; omega)
  obtain ⟨hnan, hnegative, hfinite⟩ := classes_eq hsteps'
  obtain ⟨hnum, hden⟩ := dyadic_eq hsteps hsteps'
  have hvalue : (2 * (spacing * roundQuotient n spacing) + 1) / (2 * 1) =
      spacing * roundQuotient n spacing := by omega
  rw [toCount, hbits, hnan, hnegative, if_neg (by decide), if_pos hfinite]
  dsimp only
  rw [hnum, hden, hvalue]

/-- An integer below `2 ^ 64` survives being held as a double exactly if it is a multiple of the
spacing or the greatest of them. -/
theorem min_spacing_eq_iff (hhigh : n < 2 ^ 64) :
    min (spacing * roundQuotient n spacing) (UInt64.size - 1) = n ↔
      spacing ∣ n ∨ n = UInt64.size - 1 := by
  have hsize : UInt64.size = 2 ^ 64 := rfl
  rw [hsize, spacing, roundQuotient]
  split <;> omega

end Double

end InferenceEngine
