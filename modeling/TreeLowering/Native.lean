import TreeLowering.Tree
import TreeLowering.Keyed

namespace TreeLowering.Native

mutual
-- A value of a native tree. `bigInt` keeps the text of an integer that does not fit in 64 bits, `foreign`
-- the text of a value with no counterpart in a tree.
inductive Value where
  | node (n : Node)
  | list (items : List Value)
  | str (s : String)
  | bytes (bs : List UInt8)
  | int (n : Int64)
  | bigInt (text : String)
  | float (x : Binary64)
  | complex (z : Complex)
  | bool (b : Bool)
  | none
  | foreign (text : String)

inductive Node where
  | mk (kind : String) (line : Option UInt32) (fields : List (String × Value))
end

namespace Node

def kind : Node → String
  | mk kind _ _ => kind

def line : Node → Option UInt32
  | mk _ line _ => line

def fields : Node → List (String × Value)
  | mk _ _ fields => fields

-- The value of the first field of a name.
def get? (n : Node) (name : String) : Option Value := Keyed.lookup? name n.fields

end Node

def Value.typeName : Value → String
  | node n => n.kind
  | list _ => "list"
  | str _ => "str"
  | bytes _ => "bytes"
  | int _ | bigInt _ => "int"
  | float _ => "float"
  | complex _ => "complex"
  | bool _ => "bool"
  | none => "None"
  | foreign _ => "object"

end TreeLowering.Native
