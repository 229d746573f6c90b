import TreeLowering.Decimal

namespace TreeLowering.Decimal

-- The reals that round to one point, as multiples of `2 ^ power`: they reach from `low` to `high`
-- around `point`, ends included when `closed`.
structure Gap where
  low : Nat
  point : Nat
  high : Nat
  power : Int
  closed : Bool
  deriving DecidableEq, Repr

namespace Gap

-- One unit of the decimal grid `10 ^ k` and one unit of the binary grid, in a common integer measure.
def decimalUnit (g : Gap) (k : Int) : Nat := Nat.pow 10 k.toNat * Nat.pow 2 (-g.power).toNat
def binaryUnit (g : Gap) (k : Int) : Nat := Nat.pow 2 g.power.toNat * Nat.pow 10 (-k).toNat

def holds (g : Gap) (k : Int) (n : Nat) : Bool :=
  let x := n * g.decimalUnit k
  if g.closed then g.low * g.binaryUnit k ≤ x ∧ x ≤ g.high * g.binaryUnit k
  else g.low * g.binaryUnit k < x ∧ x < g.high * g.binaryUnit k

-- The multiple of `10 ^ k` nearest to the point, if one rounds to it; a tie goes up.
def nearest? (g : Gap) (k : Int) : Option Nat :=
  let point := g.point * g.binaryUnit k
  let below := point / g.decimalUnit k
  let above := below + 1
  match g.holds k below, g.holds k above with
  | true, true =>
    some (if point - below * g.decimalUnit k < above * g.decimalUnit k - point then below else above)
  | true, false => some below
  | false, true => some above
  | false, false => none

-- The powers of ten that a gap of a 64-bit grid can need, coarsest first.
def powers : List Int := (List.range 640).map fun i : Nat => 310 - (i : Int)

-- No coarser power has a multiple that rounds to the point, so no decimal with fewer digits reads back.
def shortest? (g : Gap) : Option (Nat × Int) :=
  powers.findSome? fun k => (g.nearest? k).map fun n => (n, k)

end Gap

end TreeLowering.Decimal
