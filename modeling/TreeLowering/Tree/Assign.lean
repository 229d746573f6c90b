import TreeLowering.Tree.Render
import TreeLowering.Text.Identifier

namespace TreeLowering

inductive NodeError where
  | arity (kind : String) (expected given : Nat)
  | noField (kind field : String)
  | wrongType (kind field expected got : String) (index : Option Nat)
  | wrongAttributeValue (kind field expected value : String)
  | incomplete (kind : String) (missing : List String)
  | unknownModifier (kind field modifier : String)
  deriving DecidableEq, Repr

def NodeError.message : NodeError → String
  | .arity kind expected given =>
    kind ++ " constructor takes either 0 or " ++ toString expected ++ " positional arguments, got " ++
      toString given
  | .noField kind field => kind ++ " has no field '" ++ field ++ "'"
  | .wrongType kind field expected got index =>
    let place := match index with
      | some i => "[" ++ toString i ++ "]"
      | none => ""
    kind ++ "." ++ field ++ place ++ " must be " ++ expected ++ ", got " ++ got
  | .wrongAttributeValue kind field expected value =>
    "invalid value " ++ value ++ " for " ++ kind ++ "." ++ field ++ ": not a valid " ++ expected
  | .incomplete kind missing => kind ++ " is missing required fields: " ++ ", ".intercalate missing
  | .unknownModifier kind field modifier =>
    "unknown modifier '" ++ modifier ++ "' for field " ++ kind ++ "." ++ field

def ElementType.accepts : ElementType → Value → Bool
  | .identifier, .str s => Text.isIdentifier s
  | .string, .str _ => true
  | .bytes, .bytes _ => true
  | .int, .int _ => true
  | .float, .float _ => true
  | .complex, .complex _ => true
  | .bool, .bool _ => true
  | .singleton, v => v.isSingleton
  | .constant, v => v.isConstant
  | .object, _ => true
  | .kind name, .node n => n.isA name
  | _, _ => false

namespace Field

-- Checks one element. Any text is a candidate for an identifier, so one of another shape is a bad value
-- and not a bad type.
def check (kind : String) (f : Field) (v : Value) (index : Option Nat) : Except NodeError Unit :=
  if f.type.accepts v then .ok ()
  else match f.type, v with
    | .identifier, .str _ => .error (.wrongAttributeValue kind f.name "identifier" v.render)
    | _, _ => .error (.wrongType kind f.name f.type.name v.typeName index)

def checkItems (kind : String) (f : Field) : Nat → List Value → Except NodeError Unit
  | _, [] => .ok ()
  | index, v :: rest => do
    f.check kind v (some index)
    f.checkItems kind (index + 1) rest

def emptied (kind : String) (f : Field) : NodeError :=
  .wrongType kind f.name ("at least one " ++ f.type.name) "an empty sequence" none

-- The slot that assigning a value gives. None in an optional field says that there is no value; a field
-- with an unknown tag takes anything.
def assign (kind : String) (f : Field) (v : Value) : Except NodeError Slot :=
  match f.cardinality with
  | .required => do
    f.check kind v none
    return .value v
  | .optional =>
    if v.isNone then .ok .explicitNone
    else do
      f.check kind v none
      return .value v
  | .zeroOrMore | .oneOrMore =>
    match v.items? with
    | none => .error (.wrongType kind f.name ("a sequence of " ++ f.type.name) v.typeName none)
    | some items =>
      if items.isEmpty && f.cardinality == .oneOrMore then .error (f.emptied kind)
      else do
        f.checkItems kind 0 items
        return .value v
  | .unknown _ => .ok (.value v)

end Field

namespace Node

def indexOf (n : Node) (name : String) : Except NodeError Nat :=
  match n.schema.fieldIndex? name with
  | some index => .ok index
  | none => .error (.noField n.kind name)

-- Puts a slot in place without a check.
def put (n : Node) (index : Nat) (slot : Slot) : Node := mk n.schema (n.slots.set index slot)

def setAt (n : Node) (index : Nat) (v : Value) : Except NodeError Node :=
  match n.schema.fields[index]? with
  | some f => do return n.put index (← f.assign n.kind v)
  | none => .ok n

def set (n : Node) (name : String) (v : Value) : Except NodeError Node := do
  n.setAt (← n.indexOf name) v

def remove (n : Node) (name : String) : Except NodeError Node := do
  return n.put (← n.indexOf name) .unset

def take (n : Node) (name : String) : Except NodeError (Option Value × Node) := do
  let index ← n.indexOf name
  return ((n.slots[index]?).bind Slot.value?, n.put index .unset)

-- Replaces the value of a field without a check, where there is one.
def overwrite? (n : Node) (name : String) (v : Value) : Option Node :=
  match n.get? name, n.schema.fieldIndex? name with
  | some _, some index => some (n.put index (.value v))
  | _, _ => none

def setAll (n : Node) (index : Nat) : List Value → Except NodeError Node
  | [] => .ok n
  | v :: rest => do (← n.setAt index v).setAll (index + 1) rest

def setNamed (n : Node) : List (String × Value) → Except NodeError Node
  | [] => .ok n
  | (name, v) :: rest => do (← n.set name v).setNamed rest

-- A node from positional values, which are absent or cover every field, and then from named ones.
def make (schema : Schema) (positional : List Value) (named : List (String × Value)) :
    Except NodeError Node :=
  let expected := schema.fields.length
  if !positional.isEmpty && positional.length != expected then
    .error (.arity schema.kind expected positional.length)
  else do
    let n ← (empty schema).setAll 0 positional
    n.setNamed named

def ofValues (schema : Schema) (values : List Value) : Except NodeError Node := make schema values []

def ofFields (schema : Schema) (named : List (String × Value)) : Except NodeError Node :=
  make schema [] named

end Node

end TreeLowering
