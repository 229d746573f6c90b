namespace TreeLowering

-- The number `coefficient * 10 ^ exponent`, or its negation.
structure Decimal where
  negative : Bool
  coefficient : Nat
  exponent : Int
  deriving DecidableEq, Repr

namespace Decimal

def digit? (c : Char) : Option Nat :=
  if '0' ≤ c ∧ c ≤ '9' then some (c.toNat - '0'.toNat) else none

def isDigit (c : Char) : Bool := (digit? c).isSome

-- The number that a run of digits writes; characters that are no digit count as zero.
def ofDigits (cs : List Char) : Nat :=
  cs.foldl (fun n c => 10 * n + (digit? c).getD 0) 0

def digits (n : Nat) : List Char := Nat.toDigits 10 n

-- An optional sign in front; `true` is minus.
def sign : List Char → Bool × List Char
  | '-' :: r => (true, r)
  | '+' :: r => (false, r)
  | r => (false, r)

-- The exponent behind a mantissa: absent, or `e` with an optional sign and at least one digit.
def exponent? : List Char → Option Int
  | [] => some 0
  | c :: r =>
    let (negative, ds) := sign r
    if (c = 'e' ∨ c = 'E') ∧ ds ≠ [] ∧ ds.all isDigit then
      some (if negative then -(ofDigits ds : Int) else ofDigits ds)
    else none

-- Reads a whole numeral: a sign, digits with at most one point and at least one digit, an exponent.
def read? (cs : List Char) : Option Decimal := do
  let (negative, body) := sign cs
  let whole := body.takeWhile isDigit
  let rest := body.dropWhile isDigit
  let (places, tail) := match rest with
    | '.' :: r => (r.takeWhile isDigit, r.dropWhile isDigit)
    | r => ([], r)
  if whole = [] ∧ places = [] then none
  else return ⟨negative, ofDigits (whole ++ places), (← exponent? tail) - places.length⟩

end Decimal

end TreeLowering
