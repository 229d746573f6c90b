import TreeLowering.Keyed

namespace TreeLowering

-- How many names were issued for each hint; a hint that is not listed has none.
structure NameSupply where
  counters : List (String × Nat)
  deriving DecidableEq, Repr

namespace NameSupply

def initial : NameSupply := ⟨[]⟩

def issued (s : NameSupply) (hint : String) : Nat :=
  (Keyed.lookup? hint s.counters).getD 0

def fresh (s : NameSupply) (hint : String) : String × NameSupply :=
  let n := s.issued hint
  (hint ++ "_" ++ String.ofList (Nat.toDigits 10 n), ⟨Keyed.insert hint (n + 1) s.counters⟩)

def reset (_ : NameSupply) : NameSupply := initial

end NameSupply

end TreeLowering
