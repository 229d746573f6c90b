import TreeLowering.Proofs.Magnitudes
import TreeLowering.Rewrite.Matcher

namespace TreeLowering

inductive Number where
  | finite (value : ℚ)
  | infinite (negative : Bool)
  deriving DecidableEq

namespace Binary64

def number? (x : Binary64) : Option Number :=
  if x.isNaN then none else some (if x.isInfinite then .infinite x.negative else .finite x.toRat)

variable {x y : Binary64}

theorem number?_nan (nan : x.isNaN = true) : x.number? = none := by
  rw [number?, if_pos nan]

theorem finite_unless (ordered : x.isNaN = false) : x.isFinite = !x.isInfinite := by
  rw [← Bool.not_eq_true, nan_magnitude] at ordered
  rw [Bool.eq_iff_iff, Bool.not_eq_true', ← Bool.not_eq_true, finite_magnitude, infinite_magnitude]
  omega

theorem number?_finite {q : ℚ} : x.number? = some (.finite q) ↔ x.isFinite = true ∧ x.toRat = q := by
  cases nan : x.isNaN with
  | true =>
    have other : x.isFinite ≠ true := fun finite => Bool.false_ne_true ((finite_ordered finite).symm.trans nan)
    simp [number?_nan nan, other]
  | false =>
    rw [finite_unless nan]
    cases infinite : x.isInfinite <;> simp [number?, nan, infinite]

theorem infinite_place (infinite : x.isInfinite = true) :
    x.order = y.order ↔ y.isInfinite = true ∧ x.negative = y.negative := by
  rw [infinite_magnitude] at infinite ⊢
  rw [order_magnitude, order_magnitude, infinite]
  cases x.negative <;> cases y.negative <;> simp <;> omega

theorem number?_place (first : x.isNaN = false) (second : y.isNaN = false) :
    x.number? = y.number? ↔ x.order = y.order := by
  cases infinite : x.isInfinite with
  | true =>
    rw [infinite_place infinite]
    cases other : y.isInfinite <;> simp [number?, first, second, infinite, other]
  | false =>
    cases other : y.isInfinite with
    | true => simp [number?, first, second, infinite, other, eq_comm (a := x.order), infinite_place other]
    | false => simp [number?, first, second, infinite, other, toRat_inj]

theorem equals_number (first : x.isNaN = false) (second : y.isNaN = false) :
    x.equals y = decide (x.number? = y.number?) := by
  rw [Bool.eq_iff_iff, equals_order, decide_eq_true_eq, number?_place first second]
  simp [first, second]

theorem equals_nan_left (nan : x.isNaN = true) (y : Binary64) : x.equals y = false := by
  simp [equals, nan]

theorem equals_nan_right (x : Binary64) (nan : y.isNaN = true) : x.equals y = false := by
  simp [equals, nan]

theorem equalsInt_number (x : Binary64) (n : Int64) :
    x.equalsInt n = decide (x.number? = some (.finite n.toInt)) := by
  rw [Bool.eq_iff_iff, equalsInt_denotes, decide_eq_true_eq, number?_finite]

theorem equalsInt_nan (nan : x.isNaN = true) (n : Int64) : x.equalsInt n = false := by
  simp [equalsInt_number, number?_nan nan]

end Binary64

namespace Value

def number? : Value → Option Number
  | .int n => some (.finite n.toInt)
  | .float x => x.number?
  | _ => .none

inductive IsNumber : Value → Prop where
  | int (n : Int64) : IsNumber (.int n)
  | float {x : Binary64} (ordered : x.isNaN = false) : IsNumber (.float x)

end Value

namespace Matcher

variable {u v w : Value}

theorem test_number (first : v.IsNumber) (second : w.IsNumber) :
    (equals v).test w = .ok (decide (v.number? = w.number?)) := by
  cases first with
  | int n =>
    cases second with
    | int m =>
      have alike : (n == m) = decide ((Value.int n).number? = (Value.int m).number?) := by
        simp [beq_eq_decide, Value.number?, Int64.toInt_inj]
      exact congrArg Except.ok alike
    | @float x _ =>
      have alike : x.equalsInt n = decide ((Value.int n).number? = x.number?) := by
        simp [x.equalsInt_number, Value.number?, eq_comm]
      exact congrArg Except.ok alike
  | @float x ordered =>
    cases second with
    | int n => exact congrArg Except.ok (x.equalsInt_number n)
    | float other => exact congrArg Except.ok (Binary64.equals_number ordered other)

theorem test_symmetric (first : v.IsNumber) (second : w.IsNumber) : (equals v).test w = (equals w).test v := by
  rw [test_number first second, test_number second first]
  simp [eq_comm]

theorem test_transitive (first : u.IsNumber) (second : v.IsNumber) (third : w.IsNumber)
    (left : (equals u).test v = .ok true) (right : (equals v).test w = .ok true) : (equals u).test w = .ok true := by
  rw [test_number first second, Except.ok.injEq, decide_eq_true_eq] at left
  rw [test_number second third, Except.ok.injEq, decide_eq_true_eq] at right
  rw [test_number first third, left, right, decide_eq_true rfl]

variable {x : Binary64}

theorem test_nan_left (nan : x.isNaN = true) (v : Value) : (equals (.float x)).test v = .ok false := by
  cases v with
  | int n => exact congrArg Except.ok (Binary64.equalsInt_nan nan n)
  | float y => exact congrArg Except.ok (Binary64.equals_nan_left nan y)
  | _ => rfl

theorem test_nan_right (nan : x.isNaN = true) (v : Value) :
    (equals v).test (.float x) = if v.isConstant then .ok false else .error (.unsupportedPattern v.typeName) := by
  cases v with
  | int n => exact congrArg Except.ok (Binary64.equalsInt_nan nan n)
  | float y => exact congrArg Except.ok (Binary64.equals_nan_right y nan)
  | _ => rfl

-- Matching of numbers is exact. An integer and a floating-point number match, whichever is the pattern, just when the
-- latter is finite and denotes the integer; so on both types together matching is symmetric and transitive, but for
-- what is no number, which nothing matches.
theorem numbers_matched :
    (∀ (n : Int64) (x : Binary64),
      (equals (.int n)).test (.float x) = .ok (decide (x.isFinite = true ∧ x.toRat = n.toInt)) ∧
      (equals (.float x)).test (.int n) = .ok (decide (x.isFinite = true ∧ x.toRat = n.toInt))) ∧
    (∀ v w : Value, v.IsNumber → w.IsNumber → (equals v).test w = (equals w).test v) ∧
    (∀ u v w : Value, u.IsNumber → v.IsNumber → w.IsNumber →
      (equals u).test v = .ok true → (equals v).test w = .ok true → (equals u).test w = .ok true) ∧
    ∀ x : Binary64, x.isNaN = true → ∀ v : Value,
      (equals (.float x)).test v = .ok false ∧ (equals v).test (.float x) ≠ .ok true := by
  refine ⟨fun n x => ?_, fun _ _ => test_symmetric, fun _ _ _ => test_transitive,
    fun x nan v => ⟨test_nan_left nan v, ?_⟩⟩
  · have exact : x.equalsInt n = decide (x.isFinite = true ∧ x.toRat = n.toInt) := by
      rw [Bool.eq_iff_iff, Binary64.equalsInt_denotes, decide_eq_true_eq]
    exact ⟨congrArg Except.ok exact, congrArg Except.ok exact⟩
  · rw [test_nan_right nan]
    split <;> simp

-- The two zeros are matched through the integer between them; past 53 bits, neighbours that round to one word stay
-- apart; and what is no number does not match itself.
theorem zeros_matched :
    ((Value.float (.neg .zero)).IsNumber ∧ (Value.int 0).IsNumber ∧ (Value.float .zero).IsNumber ∧
      (equals (.float (.neg .zero))).test (.int 0) = .ok true ∧ (equals (.int 0)).test (.float .zero) = .ok true ∧
      (equals (.float (.neg .zero))).test (.float .zero) = .ok true) ∧
    ((equals (.float ⟨0x4340000000000000⟩)).test (.int 9007199254740993) = .ok false ∧
      (equals (.int 9007199254740993)).test (.float ⟨0x4340000000000000⟩) = .ok false) ∧
    Binary64.nan.isNaN = true ∧ (equals (.float .nan)).test (.float .nan) = .ok false := by
  obtain ⟨-, symmetric, transitive, unmatched⟩ := numbers_matched
  have left : (equals (.float (.neg .zero))).test (.int 0) = .ok true := congrArg Except.ok (by decide +kernel)
  have right : (equals (.int 0)).test (.float .zero) = .ok true := congrArg Except.ok (by decide +kernel)
  have apart : (equals (.float ⟨0x4340000000000000⟩)).test (.int 9007199254740993) = .ok false := rfl
  exact ⟨⟨.float rfl, .int 0, .float rfl, left, right,
      transitive _ (.int 0) _ (.float rfl) (.int 0) (.float rfl) left right⟩,
    ⟨apart, (symmetric _ _ (.int _) (.float rfl)).trans apart⟩, rfl, (unmatched .nan rfl _).1⟩

end Matcher

end TreeLowering
