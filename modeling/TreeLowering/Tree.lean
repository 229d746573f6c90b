import TreeLowering.Schema.Registry
import TreeLowering.Binary64

namespace TreeLowering

structure Complex where
  re : Binary64
  im : Binary64
  deriving DecidableEq, Repr

mutual
-- A list is a sequence as it was assigned, a tuple one in its final form; the two never compare equal.
inductive Value where
  | none
  | bool (b : Bool)
  | int (n : Int64)
  | float (x : Binary64)
  | complex (z : Complex)
  | str (s : String)
  | bytes (bs : List UInt8)
  | list (items : List Value)
  | tuple (items : List Value)
  | node (n : Node)

-- A slot that says explicitly that there is no value is not unset.
inductive Slot where
  | unset
  | explicitNone
  | value (v : Value)

inductive Node where
  | mk (schema : Schema) (slots : List Slot)
end

instance : Inhabited Value := ⟨.none⟩
instance : Inhabited Slot := ⟨.unset⟩

namespace Slot

def value? : Slot → Option Value
  | value v => some v
  | _ => Option.none

def isUnset : Slot → Bool
  | unset => true
  | _ => false

end Slot

namespace Node

def schema : Node → Schema
  | mk schema _ => schema

def slots : Node → List Slot
  | mk _ slots => slots

def kind (n : Node) : String := n.schema.kind

def isA (n : Node) (kind : String) : Bool := n.schema.isSubkindOf kind

def empty (schema : Schema) : Node := mk schema (List.replicate schema.fields.length .unset)

def fields (n : Node) : List (Field × Slot) := n.schema.fields.zip n.slots

def slot? (n : Node) (name : String) : Option Slot := (n.schema.fieldIndex? name).bind (n.slots[·]?)

-- The value of a field; one that is unset, explicitly none or undeclared has none.
def get? (n : Node) (name : String) : Option Value := (n.slot? name).bind Slot.value?

def isSet (n : Node) (name : String) : Bool := (n.slot? name).any fun s => !s.isUnset

end Node

namespace Value

-- The name of a value's type in messages; a node goes by its kind.
def typeName : Value → String
  | none => "None"
  | bool _ => "bool"
  | int _ => "int"
  | float _ => "float"
  | complex _ => "complex"
  | str _ => "str"
  | bytes _ => "bytes"
  | list _ => "list"
  | tuple _ => "tuple"
  | node n => n.kind

def isNone : Value → Bool
  | none => true
  | _ => false

def items? : Value → Option (List Value)
  | list items | tuple items => some items
  | _ => Option.none

def isSequence (v : Value) : Bool := v.items?.isSome

def node? : Value → Option Node
  | node n => some n
  | _ => Option.none

def text? : Value → Option String
  | str s => some s
  | _ => Option.none

def isSingleton : Value → Bool
  | bool _ | none => true
  | _ => false

def isConstant : Value → Bool
  | list _ | tuple _ | node _ => false
  | _ => true

def ofNodes (nodes : List Node) : Value := list (nodes.map node)

end Value

end TreeLowering
