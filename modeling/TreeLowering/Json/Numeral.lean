import TreeLowering.Binary64

namespace TreeLowering.Json.Numeral

open Decimal (isDigit ofDigits)

-- Digits without a superfluous zero in front.
def isWhole : List Char → Bool
  | [] => false
  | ['0'] => true
  | '0' :: _ => false
  | ds => ds.all isDigit

def isPlaces (ds : List Char) : Bool := ds ≠ [] && ds.all isDigit

def exponent? : List Char → Option (List Char)
  | [] => some []
  | c :: r =>
    if c ≠ 'e' ∧ c ≠ 'E' then none
    else match r with
      | '-' :: ds => if isPlaces ds then some ('e' :: '-' :: ds) else none
      | '+' :: ds => if isPlaces ds then some ('e' :: '+' :: ds) else none
      | ds => if isPlaces ds then some ('e' :: '+' :: ds) else none

def magnitude? (cs : List Char) : Option (List Char) :=
  let whole := cs.takeWhile isDigit
  if !isWhole whole then none
  else match cs.dropWhile isDigit with
    | '.' :: r =>
      let places := r.takeWhile isDigit
      if isPlaces places then
        (exponent? (r.dropWhile isDigit)).map fun e => whole ++ '.' :: (places ++ e)
      else none
    | r => (exponent? r).map fun e => whole ++ e

-- The kept text of a literal, or nothing when it is malformed.
def spelling? : List Char → Option (List Char)
  | '-' :: cs => (magnitude? cs).map ('-' :: ·)
  | cs => magnitude? cs

def isInteger (text : String) : Bool := !text.toList.any fun c => c = '.' || c = 'e' || c = 'E'

def toInt? (text : String) : Option Int :=
  match text.toList with
  | '-' :: ds => if isPlaces ds then some (-(ofDigits ds : Int)) else none
  | ds => if isPlaces ds then some (ofDigits ds) else none

def toInt64? (text : String) : Option Int64 :=
  (toInt? text).bind fun z =>
    if -9223372036854775808 ≤ z ∧ z < 9223372036854775808 then some (Int64.ofInt z) else none

def toNat? (text : String) (bound : Nat) : Option Nat :=
  let ds := text.toList
  if isPlaces ds ∧ ofDigits ds < bound then some (ofDigits ds) else none

-- The nearest floating-point number, unless it is infinite.
def toBinary64? (text : String) : Option Binary64 :=
  (Decimal.read? text.toList).bind fun d =>
    let x := Binary64.ofDecimal d
    if x.isFinite then some x else none

end TreeLowering.Json.Numeral
