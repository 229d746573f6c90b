import Mathlib.Algebra.Order.Field.Power
import Mathlib.Algebra.Order.Field.Rat
import Mathlib.Algebra.Ring.Int.Parity
import Mathlib.Tactic.Ring
import TreeLowering.Binary64

namespace TreeLowering.Binary64

def toRat (x : Binary64) : ℚ := (if x.negative then -1 else 1) * x.significand * 2 ^ x.power

def magnitude (x : Binary64) : Nat := x.bits.toNat % 2 ^ 63

-- The multiple of the least magnitude that a word below the sign stands for.
def multiple (word : Nat) : Nat :=
  if word / 2 ^ 52 = 0 then word % 2 ^ 52 else (2 ^ 52 + word % 2 ^ 52) * 2 ^ (word / 2 ^ 52 - 1)

def signedMultiple (x : Binary64) : Int := if x.negative then -(multiple x.magnitude : Int) else multiple x.magnitude

variable {x y : Binary64}

theorem exponent_magnitude (x : Binary64) : x.exponentField = x.magnitude / 2 ^ 52 := by
  change x.bits.toNat / 2 ^ 52 % 2 ^ 11 = x.bits.toNat % 2 ^ 63 / 2 ^ 52
  omega

theorem fraction_magnitude (x : Binary64) : x.fraction = x.magnitude % 2 ^ 52 := by
  change x.bits.toNat % 2 ^ 52 = x.bits.toNat % 2 ^ 63 % 2 ^ 52
  omega

theorem order_magnitude (x : Binary64) : x.order = if x.negative then -(x.magnitude : Int) else x.magnitude := rfl

theorem bits_magnitude (x : Binary64) : x.bits.toNat = (if x.negative then 2 ^ 63 else 0) + x.magnitude := by
  have bound := x.bits.toNat_lt
  have sign : x.negative = decide (2 ^ 63 ≤ x.bits.toNat) := rfl
  rw [sign, magnitude]
  simp only [decide_eq_true_eq]
  split <;> omega

theorem finite_magnitude : x.isFinite = true ↔ x.magnitude < 2047 * 2 ^ 52 := by
  rw [isFinite, decide_eq_true_eq, exponent_magnitude]
  omega

theorem infinite_magnitude : x.isInfinite = true ↔ x.magnitude = 2047 * 2 ^ 52 := by
  rw [isInfinite, decide_eq_true_eq, exponent_magnitude, fraction_magnitude]
  omega

theorem nan_magnitude : x.isNaN = true ↔ 2047 * 2 ^ 52 < x.magnitude := by
  have bound : x.magnitude < 2 ^ 63 := Nat.mod_lt _ (by decide)
  rw [isNaN, decide_eq_true_eq, exponent_magnitude, fraction_magnitude]
  omega

theorem zero_magnitude : x.isZero = true ↔ x.magnitude = 0 := by
  rw [isZero, decide_eq_true_eq, exponent_magnitude, fraction_magnitude]
  omega

theorem multiple_power (x : Binary64) : multiple x.magnitude = x.significand * 2 ^ (x.power + 1074).toNat := by
  unfold multiple significand power
  rw [exponent_magnitude, fraction_magnitude]
  split
  · simp
  next normal =>
    have exponent : ((x.magnitude / 2 ^ 52 : Nat) : Int) - 1075 + 1074 = ((x.magnitude / 2 ^ 52 - 1 : Nat) : Int) := by
      omega
    rw [exponent, Int.toNat_natCast]
    rfl

theorem least_power (x : Binary64) : -1074 ≤ x.power := by
  unfold power
  split <;> omega

theorem toRat_scaled (x : Binary64) : x.toRat * 2 ^ 1074 = x.signedMultiple := by
  have exponent : (2 : ℚ) ^ x.power * 2 ^ 1074 = 2 ^ (x.power + 1074).toNat := by
    have least := x.least_power
    rw [← zpow_natCast, ← zpow_natCast, ← zpow_add₀ two_ne_zero, Int.toNat_of_nonneg (by omega)]
    rfl
  unfold toRat signedMultiple
  rw [mul_assoc, exponent, multiple_power]
  split <;> push_cast <;> ring

-- Below the sign, the words of one exponent stand for magnitudes below those of the next one.
theorem multiple_below (word : Nat) : multiple word < 2 ^ 52 * 2 ^ (word / 2 ^ 52) := by
  have fraction : word % 2 ^ 52 < 2 ^ 52 := Nat.mod_lt _ (by decide)
  unfold multiple
  split
  next subnormal =>
    rw [subnormal]
    omega
  next normal =>
    have next : 2 ^ (word / 2 ^ 52) = 2 * 2 ^ (word / 2 ^ 52 - 1) := by
      rw [← Nat.pow_succ', Nat.succ_eq_add_one, Nat.sub_add_cancel (Nat.one_le_iff_ne_zero.mpr normal)]
    rw [next, ← Nat.mul_assoc]
    exact Nat.mul_lt_mul_of_pos_right (by omega) (Nat.two_pow_pos _)

theorem multiple_from {word : Nat} (normal : word / 2 ^ 52 ≠ 0) :
    2 ^ 52 * 2 ^ (word / 2 ^ 52 - 1) ≤ multiple word := by
  rw [multiple, if_neg normal]
  exact Nat.mul_le_mul_right _ (Nat.le_add_right ..)

theorem multiple_strictMono : StrictMono multiple := by
  intro a b below
  rcases Nat.lt_or_eq_of_le (Nat.div_le_div_right (c := 2 ^ 52) (Nat.le_of_lt below)) with lower | same
  · calc multiple a < 2 ^ 52 * 2 ^ (a / 2 ^ 52) := multiple_below a
      _ ≤ 2 ^ 52 * 2 ^ (b / 2 ^ 52 - 1) :=
        Nat.mul_le_mul_left _ (Nat.pow_le_pow_right (by decide) (Nat.le_sub_one_of_lt lower))
      _ ≤ multiple b := multiple_from (by omega)
  · have fractions : a % 2 ^ 52 < b % 2 ^ 52 := by omega
    unfold multiple
    rw [same]
    split
    · exact fractions
    · exact Nat.mul_lt_mul_of_pos_right (by omega) (Nat.two_pow_pos _)

theorem signedMultiple_le : x.order ≤ y.order ↔ x.signedMultiple ≤ y.signedMultiple := by
  have zero : multiple 0 = 0 := rfl
  have mono : ∀ a b, a ≤ b ↔ multiple a ≤ multiple b := fun a b => multiple_strictMono.le_iff_le.symm
  have first := mono x.magnitude y.magnitude
  have second := mono y.magnitude x.magnitude
  have third := mono x.magnitude 0
  have fourth := mono y.magnitude 0
  rw [order_magnitude, order_magnitude, signedMultiple, signedMultiple]
  split <;> split <;> omega

theorem toRat_le : x.toRat ≤ y.toRat ↔ x.order ≤ y.order := by
  have unit : (0 : ℚ) < 2 ^ 1074 := pow_pos zero_lt_two _
  rw [← mul_le_mul_iff_left₀ unit, toRat_scaled, toRat_scaled, Int.cast_le, signedMultiple_le]

theorem toRat_lt : x.toRat < y.toRat ↔ x.order < y.order := by
  rw [← not_le, toRat_le, not_le]

theorem finite_ordered (finite : x.isFinite = true) : x.isNaN = false := by
  rw [finite_magnitude] at finite
  rw [← Bool.not_eq_true, nan_magnitude]
  omega

theorem le_exact (first : x.isFinite = true) (second : y.isFinite = true) : le x y = true ↔ x.toRat ≤ y.toRat := by
  simp [le, finite_ordered first, finite_ordered second, toRat_le]

theorem lt_exact (first : x.isFinite = true) (second : y.isFinite = true) : lt x y = true ↔ x.toRat < y.toRat := by
  simp [lt, finite_ordered first, finite_ordered second, toRat_lt]

theorem toRat_inj : x.toRat = y.toRat ↔ x.order = y.order := by
  rw [le_antisymm_iff, le_antisymm_iff, toRat_le, toRat_le]

theorem equals_order : x.equals y = true ↔ x.isNaN = false ∧ y.isNaN = false ∧ x.order = y.order := by
  have place : x.bits = y.bits ∨ x.magnitude = 0 ∧ y.magnitude = 0 ↔ x.order = y.order := by
    have first : x.magnitude < 2 ^ 63 := Nat.mod_lt _ (by decide)
    have second : y.magnitude < 2 ^ 63 := Nat.mod_lt _ (by decide)
    rw [← UInt64.toNat_inj, bits_magnitude x, bits_magnitude y, order_magnitude, order_magnitude]
    split <;> split <;> omega
  simp [equals, zero_magnitude, place, and_assoc]

-- A number is a quotient of powers of two times its significand, and the same quotient in the least magnitude.
theorem multiple_split (x : Binary64) : ∃ k, 2 ^ 1074 = 2 ^ (-x.power).toNat * 2 ^ k ∧
    multiple x.magnitude = x.significand * 2 ^ x.power.toNat * 2 ^ k := by
  have least := x.least_power
  refine ⟨1074 - (-x.power).toNat, ?_, ?_⟩
  · rw [← Nat.pow_add, Nat.add_sub_cancel' (by omega)]
  · rw [multiple_power, Nat.mul_assoc, ← Nat.pow_add]
    congr 2
    omega

theorem whole_dvd : x.isWhole = true ↔ x.isFinite = true ∧ (2 ^ 1074 : Int) ∣ x.signedMultiple := by
  obtain ⟨k, unit, split⟩ := x.multiple_split
  have natural : (2 ^ 1074 : Int) ∣ x.signedMultiple ↔ 2 ^ 1074 ∣ multiple x.magnitude := by
    rw [← Int.natCast_dvd_natCast, Nat.cast_pow]
    unfold signedMultiple
    cases x.negative
    · rfl
    · exact Int.dvd_neg
  rw [natural, unit, split, Nat.mul_dvd_mul_iff_right (Nat.two_pow_pos k), Nat.dvd_iff_mod_eq_zero, isWhole,
    Bool.and_eq_true, decide_eq_true_eq]
  rfl

theorem truncated_tdiv (x : Binary64) : x.truncated = x.signedMultiple.tdiv (2 ^ 1074) := by
  obtain ⟨k, unit, split⟩ := x.multiple_split
  have quotient : ((x.significand * 2 ^ x.power.toNat / 2 ^ (-x.power).toNat : Nat) : Int) =
      (multiple x.magnitude : Int).tdiv (2 ^ 1074) := by
    rw [← Nat.mul_div_mul_right _ _ (Nat.two_pow_pos k), ← unit, ← split, Int.ofNat_tdiv, Nat.cast_pow]
    rfl
  unfold signedMultiple
  cases sign : x.negative with
  | false => exact (if_neg (by simp [sign])).trans quotient
  | true =>
    rw [if_pos rfl, Int.neg_tdiv, ← quotient]
    exact if_pos sign

theorem whole_denotes {z : Int} : x.isWhole = true ∧ x.truncated = z ↔ x.isFinite = true ∧ x.toRat = z := by
  have unit : (2 ^ 1074 : ℚ) ≠ 0 := pow_ne_zero _ two_ne_zero
  have scale : x.toRat = z ↔ x.signedMultiple = z * 2 ^ 1074 := by
    have cast : ((z * 2 ^ 1074 : Int) : ℚ) = z * 2 ^ 1074 := by rw [Int.cast_mul, Int.cast_pow, Int.cast_ofNat]
    rw [← mul_left_inj' unit, toRat_scaled, ← cast, Int.cast_inj]
  rw [whole_dvd, truncated_tdiv, scale]
  constructor
  · rintro ⟨⟨finite, whole⟩, rfl⟩
    exact ⟨finite, (Int.tdiv_mul_cancel whole).symm⟩
  · rintro ⟨finite, same⟩
    rw [same]
    exact ⟨⟨finite, Int.dvd_mul_left ..⟩, Int.mul_tdiv_cancel z (pow_ne_zero _ two_ne_zero)⟩

theorem toInt?_denotes {z : Int} : x.toInt? = some z ↔ x.isFinite = true ∧ x.toRat = z := by
  rw [← whole_denotes, isWhole, truncated, toInt?]
  cases x.isFinite <;> simp

-- The ends of the range as floating-point numbers: the lower one is exact, the upper one rounded up.
theorem least_denotes : (ofInt Int64.minValue.toInt).isFinite = true ∧
    (ofInt Int64.minValue.toInt).toRat = (-2 ^ 63 : Int) := whole_denotes.mp ⟨by decide, by decide⟩

theorem bound_denotes : (ofInt Int64.maxValue.toInt).isFinite = true ∧
    (ofInt Int64.maxValue.toInt).toRat = (2 ^ 63 : Int) := whole_denotes.mp ⟨by decide, by decide⟩

theorem toInt64_finite (finite : x.isFinite = true) :
    x.toInt64 = .ofInt (max (-2 ^ 63) (min (2 ^ 63 - 1) x.truncated)) := by
  have bounded : x.isInfinite = false := by
    rw [finite_magnitude] at finite
    rw [← Bool.not_eq_true, infinite_magnitude]
    omega
  rw [toInt64, finite_ordered finite, bounded, Int64.toInt_minValue, Int64.toInt_maxValue]
  rfl

-- The comparison by range, point and conversion is exact: neither the integer nor the word is ever rounded.
theorem equalsInt_denotes {n : Int64} : x.equalsInt n = true ↔ x.isFinite = true ∧ x.toRat = n.toInt := by
  have above := n.le_toInt
  have below := n.toInt_lt
  rw [equalsInt, Bool.and_eq_true, Bool.and_eq_true, Bool.and_eq_true, beq_iff_eq]
  constructor
  · rintro ⟨⟨⟨whole, least⟩, bound⟩, rfl⟩
    obtain ⟨finite, denotes⟩ := whole_denotes.mp ⟨whole, rfl⟩
    rw [le_exact least_denotes.1 finite, least_denotes.2, denotes, Int.cast_le] at least
    rw [lt_exact finite bound_denotes.1, bound_denotes.2, denotes, Int.cast_lt] at bound
    have kept : max (-2 ^ 63) (min (2 ^ 63 - 1) x.truncated) = x.truncated := by omega
    rw [toInt64_finite finite, kept, Int64.toInt_ofInt_of_le least bound]
    exact ⟨finite, denotes⟩
  · rintro ⟨finite, denotes⟩
    obtain ⟨whole, truncated⟩ := whole_denotes.mpr ⟨finite, denotes⟩
    have kept : max (-2 ^ 63) (min (2 ^ 63 - 1) n.toInt) = n.toInt := by omega
    rw [le_exact least_denotes.1 finite, least_denotes.2, lt_exact finite bound_denotes.1, bound_denotes.2, denotes,
      Int.cast_le, Int.cast_lt, toInt64_finite finite, truncated, kept, Int64.ofInt_toInt]
    exact ⟨⟨⟨whole, above⟩, below⟩, rfl⟩

theorem equalsInt_toInt? {n : Int64} : x.equalsInt n = true ↔ x.toInt? = some n.toInt :=
  equalsInt_denotes.trans toInt?_denotes.symm

end TreeLowering.Binary64
