import TreeLowering.Json.Token

namespace TreeLowering.Toml

open Decimal (isDigit ofDigits)
open Json.Mode (hexDigit?)

def isRun (digit : Char → Bool) : List Char → Bool
  | [] => false
  | [c] => digit c
  | c :: '_' :: d :: r => digit c && isRun digit (d :: r)
  | c :: r => digit c && isRun digit r

def withoutUnderscores (cs : List Char) : List Char := cs.filter (· ≠ '_')

def withoutSign : List Char → List Char
  | '+' :: r => r
  | '-' :: r => r
  | r => r

-- A decimal integer has no superfluous zero in front.
def isDecimalRun (cs : List Char) : Bool :=
  isRun isDigit cs && (cs.head? ≠ some '0' || cs.length = 1)

def isDecimalInteger (cs : List Char) : Bool :=
  let n := ofDigits (withoutUnderscores (withoutSign cs))
  isDecimalRun (withoutSign cs) && (n < Nat.pow 2 63 || (cs.head? = some '-' && n = Nat.pow 2 63))

def digitIn (base : Nat) (c : Char) : Bool := (hexDigit? c).any (· < base)

def ofBase (base : Nat) (ds : List Char) : Nat :=
  ds.foldl (fun n d => base * n + (hexDigit? d).getD 0) 0

def isIntegerOf (base : Nat) (cs : List Char) : Bool :=
  isRun (digitIn base) cs && ofBase base (withoutUnderscores cs) < Nat.pow 2 63

-- An integer with its base in front, which has no sign.
def isBased : List Char → Bool
  | '0' :: 'x' :: r => isIntegerOf 16 r
  | '0' :: 'o' :: r => isIntegerOf 8 r
  | '0' :: 'b' :: r => isIntegerOf 2 r
  | _ => false

def isExponent : List Char → Bool
  | c :: r => (c = 'e' || c = 'E') && isRun isDigit (withoutSign r)
  | [] => false

def inRun (c : Char) : Bool := isDigit c || c = '_'

def isFractional (cs : List Char) : Bool :=
  let body := withoutSign cs
  isDecimalRun (body.takeWhile inRun) &&
    match body.dropWhile inRun with
    | '.' :: r =>
      isRun isDigit (r.takeWhile inRun) && (r.dropWhile inRun = [] || isExponent (r.dropWhile inRun))
    | r => isExponent r

-- Overflow counts as a fault for positive numbers only.
def overflows (cs : List Char) : Bool :=
  (Decimal.read? (withoutUnderscores cs)).any fun d => Binary64.ofDecimal d = Binary64.infinity false

def isSpecial (cs : List Char) : Bool :=
  withoutSign cs = "inf".toList || withoutSign cs = "nan".toList

def isFloat (cs : List Char) : Bool := isSpecial cs || (isFractional cs && !overflows cs)

def isLeap (year : Nat) : Bool := year % 4 = 0 && (year % 100 ≠ 0 || year % 400 = 0)

def daysIn (year month : Nat) : Nat :=
  if month = 2 then (if isLeap year then 29 else 28)
  else if [4, 6, 9, 11].contains month then 30
  else 31

def isPair (low high : Nat) (a b : Char) : Bool :=
  isDigit a && isDigit b && low ≤ ofDigits [a, b] && ofDigits [a, b] ≤ high

def isOffset : List Char → Bool
  | [] => true
  | ['Z'] | ['z'] => true
  | [s, a, b, ':', c, d] => (s = '+' || s = '-') && isPair 0 23 a b && isPair 0 59 c d
  | _ => false

def isTime (offset : List Char → Bool) : List Char → Bool
  | a :: b :: ':' :: c :: d :: ':' :: e :: f :: r =>
    isPair 0 23 a b && isPair 0 59 c d && isPair 0 60 e f &&
      match r with
      | '.' :: r => (r.head?).any isDigit && offset (r.dropWhile isDigit)
      | r => offset r
  | _ => false

def isDate : List Char → Bool
  | a :: b :: c :: d :: '-' :: e :: f :: '-' :: g :: h :: r =>
    [a, b, c, d].all isDigit && isPair 1 12 e f &&
      isPair 1 (daysIn (ofDigits [a, b, c, d]) (ofDigits [e, f])) g h &&
      match r with
      | [] => true
      | t :: r => (t = 'T' || t = 't' || t = ' ') && isTime isOffset r
  | _ => false

def isScalar (cs : List Char) : Bool :=
  isDecimalInteger cs || isBased cs || isFloat cs || isDate cs || isTime (· = []) cs

def inScalar (c : Char) : Bool := c.isAlphanum || c = '+' || c = '-' || c = '_' || c = '.' || c = ':'

-- The characters of a scalar; a date and a time may have one space between them.
def scalarText (cs : List Char) : List Char × List Char :=
  let first := cs.takeWhile inScalar
  match cs.dropWhile inScalar with
  | ' ' :: d :: r =>
    if isDate first && isDigit d then (first ++ ' ' :: (d :: r).takeWhile inScalar, (d :: r).dropWhile inScalar)
    else (first, ' ' :: d :: r)
  | r => (first, r)

end TreeLowering.Toml
