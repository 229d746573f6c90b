import TreeLowering.Tree

namespace TreeLowering

def Complex.equals (a b : Complex) : Bool := a.re.equals b.re && a.im.equals b.im

mutual
-- Numbers compare as floating-point numbers do, so a tree with a NaN differs from itself.
def Value.equals : Value → Value → Bool
  | .none, .none => true
  | .bool a, .bool b => a == b
  | .int a, .int b => a == b
  | .float a, .float b => a.equals b
  | .complex a, .complex b => a.equals b
  | .str a, .str b => a == b
  | .bytes a, .bytes b => a == b
  | .list a, .list b => Value.allEqual a b
  | .tuple a, .tuple b => Value.allEqual a b
  | .node a, .node b => a.equals b
  | _, _ => false
termination_by structural v => v

def Value.allEqual : List Value → List Value → Bool
  | [], [] => true
  | a :: as, b :: bs => a.equals b && Value.allEqual as bs
  | _, _ => false
termination_by structural vs => vs

def Slot.equals : Slot → Slot → Bool
  | .unset, .unset => true
  | .explicitNone, .explicitNone => true
  | .value a, .value b => a.equals b
  | _, _ => false
termination_by structural s => s

def Slot.allEqual : List Slot → List Slot → Bool
  | [], [] => true
  | a :: as, b :: bs => a.equals b && Slot.allEqual as bs
  | _, _ => false
termination_by structural ss => ss

def Node.equals : Node → Node → Bool
  | .mk s as, .mk t bs => s.same t && Slot.allEqual as bs
termination_by structural n => n
end

end TreeLowering
