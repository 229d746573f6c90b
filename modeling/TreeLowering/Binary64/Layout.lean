import TreeLowering.Binary64

namespace TreeLowering.Binary64

-- The decisions of one written form. `positional n` says whether a number `0.d₁d₂… * 10 ^ n` is written
-- without an exponent.
structure Layout where
  positional : Int → Bool
  leastPlaces : Nat
  nan : String

-- A float literal: a point with at least one place, and an exponent outside of `10 ^ -4` to `10 ^ 16`.
def Layout.literal : Layout := ⟨fun n => -3 ≤ n ∧ n ≤ 16, 1, "nan"⟩

-- A part of a complex literal: never an exponent, and no point after a whole number.
def Layout.part : Layout := ⟨fun _ => true, 0, "NaN"⟩

def zeros (n : Nat) : List Char := List.replicate n '0'

def Layout.place (layout : Layout) (digits : List Char) (point : Int) : List Char :=
  let size : Int := digits.length
  if point ≤ 0 then '0' :: '.' :: (zeros (-point).toNat ++ digits)
  else if point < size then digits.take point.toNat ++ '.' :: digits.drop point.toNat
  else digits ++ zeros (point - size).toNat ++
    (if layout.leastPlaces = 0 then [] else '.' :: zeros layout.leastPlaces)

-- One digit before the point, and the exponent behind an `e` without a plus sign.
def scientific (digits : List Char) (point : Int) : List Char :=
  let exponent := point - 1
  let mantissa := match digits with
    | [] => []
    | d :: [] => [d]
    | d :: ds => d :: '.' :: ds
  mantissa ++ 'e' :: (if exponent < 0 then ['-'] else []) ++ Decimal.digits exponent.natAbs

def Layout.magnitude (layout : Layout) (x : Binary64) : List Char :=
  if x.isZero then layout.place ['0'] 1
  else match x.gap.shortest? with
    | none => []
    | some (n, k) =>
      let digits := Decimal.digits n
      let point := (digits.length : Int) + k
      if layout.positional point then layout.place digits point else scientific digits point

def Layout.render (layout : Layout) (x : Binary64) : List Char :=
  let mark := if x.negative then ['-'] else []
  if x.isNaN then layout.nan.toList
  else if x.isInfinite then mark ++ "inf".toList
  else mark ++ layout.magnitude x

end TreeLowering.Binary64
