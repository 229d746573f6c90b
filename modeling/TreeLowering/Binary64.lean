import TreeLowering.Decimal.Shortest

namespace TreeLowering

-- All arithmetic is on integers, so every fact about a word can be stated and decided exactly.
structure Binary64 where
  bits : UInt64
  deriving DecidableEq, Repr

namespace Binary64

variable (x y : Binary64)

def negative : Bool := Nat.pow 2 63 ≤ x.bits.toNat
def exponentField : Nat := x.bits.toNat / Nat.pow 2 52 % Nat.pow 2 11
def fraction : Nat := x.bits.toNat % Nat.pow 2 52

def isFinite : Bool := x.exponentField < 2047
def isInfinite : Bool := x.exponentField = 2047 ∧ x.fraction = 0
def isNaN : Bool := x.exponentField = 2047 ∧ x.fraction ≠ 0
def isZero : Bool := x.exponentField = 0 ∧ x.fraction = 0

-- A finite word stands for `significand * 2 ^ power`, up to sign.
def significand : Nat := if x.exponentField = 0 then x.fraction else Nat.pow 2 52 + x.fraction
def power : Int := if x.exponentField = 0 then -1074 else (x.exponentField : Int) - 1075

-- Equality of numbers: a NaN differs from all words, and the two zeros are one number.
def equals : Bool := !x.isNaN && !y.isNaN && (x.bits == y.bits || (x.isZero && y.isZero))

-- The place of a word among the others. Words grow with the magnitudes that they stand for, so below the
-- sign bit they count up from zero, and down from there when it is set.
def order : Int :=
  let magnitude := x.bits.toNat % Nat.pow 2 63
  if x.negative then -(magnitude : Int) else magnitude

-- Comparison of numbers: a NaN is neither above nor below anything.
def le : Bool := !x.isNaN && !y.isNaN && x.order ≤ y.order
def lt : Bool := !x.isNaN && !y.isNaN && x.order < y.order

def neg : Binary64 := ⟨x.bits ^^^ (0x8000000000000000 : UInt64)⟩

def toInt? : Option Int :=
  if !x.isFinite then none
  else
    let scale := Nat.pow 2 (-x.power).toNat
    if x.significand * Nat.pow 2 x.power.toNat % scale = 0 then
      let magnitude := x.significand * Nat.pow 2 x.power.toNat / scale
      some (if x.negative then -(magnitude : Int) else magnitude)
    else none

def isWhole : Bool :=
  x.isFinite && x.significand * Nat.pow 2 x.power.toNat % Nat.pow 2 (-x.power).toNat = 0

def truncated : Int :=
  let magnitude := x.significand * Nat.pow 2 x.power.toNat / Nat.pow 2 (-x.power).toNat
  if x.negative then -(magnitude : Int) else magnitude

-- Conversion to 64 bits: what lies outside of them becomes the nearest end, and a NaN zero.
def toInt64 : Int64 :=
  if x.isNaN then 0
  else if x.isInfinite then if x.negative then .minValue else .maxValue
  else .ofInt (max Int64.minValue.toInt (min Int64.maxValue.toInt x.truncated))

-- The reals that round to a finite word. The gap below is half as wide at a power of two, where the
-- grid beneath is twice as fine.
def gap : Decimal.Gap :=
  let narrow := x.fraction = 0 ∧ 1 < x.exponentField
  ⟨4 * x.significand - (if narrow then 1 else 2), 4 * x.significand, 4 * x.significand + 2,
   x.power - 2, x.significand % 2 = 0⟩

-- The word of a magnitude given by its exponent and fraction fields in one number; all that is past the
-- largest finite word is infinity.
def ofMagnitude (negative : Bool) (word : Nat) : Binary64 :=
  let infinity := 2047 * Nat.pow 2 52
  ⟨.ofNat (min word infinity + if negative then Nat.pow 2 63 else 0)⟩

def zero : Binary64 := ⟨0⟩
def nan : Binary64 := ⟨0x7ff8000000000000⟩
def infinity (negative : Bool) : Binary64 := ofMagnitude negative (2047 * Nat.pow 2 52)

-- The quotient rounded to the nearest integer, a half to the even neighbour.
def roundDiv (num den : Nat) : Nat :=
  let q := num / den
  let r := num % den
  if 2 * r < den ∨ (2 * r = den ∧ q % 2 = 0) then q else q + 1

-- `num / den` in units of `2 ^ power`, as a quotient of integers.
def scaled (num den : Nat) (power : Int) : Nat × Nat :=
  (num * Nat.pow 2 (-power).toNat, den * Nat.pow 2 power.toNat)

-- The word nearest to `num / den`. The unit is chosen so that the quotient has 53 bits, or is the least
-- one; a carry out of the rounding runs into the exponent field, as the format intends.
def ofRatio (negative : Bool) (num den : Nat) : Binary64 :=
  let start : Int := (Nat.log2 num : Int) - Nat.log2 den - 52
  let (n, d) := scaled num den start
  let unit := max (if n / d < Nat.pow 2 52 then start - 1 else start) (-1074)
  let (n, d) := scaled num den unit
  ofMagnitude negative ((unit + 1074).toNat * Nat.pow 2 52 + roundDiv n d)

-- The word nearest to a decimal. Magnitudes past `10 ^ 310` and below `10 ^ -330` are settled by their
-- order alone.
def ofDecimal (d : Decimal) : Binary64 :=
  let order := ((Decimal.digits d.coefficient).length : Int) + d.exponent
  if d.coefficient = 0 ∨ order < -330 then ofMagnitude d.negative 0
  else if 310 < order then infinity d.negative
  else ofRatio d.negative (d.coefficient * Nat.pow 10 d.exponent.toNat)
    (Nat.pow 10 (-d.exponent).toNat)

def ofInt (n : Int) : Binary64 := ofDecimal ⟨n < 0, n.natAbs, 0⟩

-- Equality with an integer of 64 bits, neither of the two being rounded. The greatest integer is no
-- floating-point number and rounds up to the power of two above it, so that end does not belong to the range.
def equalsInt (n : Int64) : Bool :=
  x.isWhole && le (ofInt Int64.minValue.toInt) x && lt x (ofInt Int64.maxValue.toInt) && x.toInt64 == n

-- The special words by name, with an optional sign. The case of the letters does not matter.
def special? (cs : List Char) : Option Binary64 :=
  let (negative, name) := Decimal.sign cs
  let name := name.map Char.toLower
  if name = "inf".toList ∨ name = "infinity".toList then some (infinity negative)
  else if name = "nan".toList then some (if negative then nan.neg else nan)
  else none

def read? (s : String) : Option Binary64 :=
  special? s.toList <|> (Decimal.read? s.toList).map ofDecimal

end Binary64

end TreeLowering
