import TreeLowering.Schema.Registry
import TreeLowering.Json.Document

namespace TreeLowering

namespace SchemaTable

-- What of a document a table can speak of. What is neither null, nor a text, nor composed is `other`; so
-- is an object with a key that spells no text.
inductive Shape where
  | null
  | text (s : String)
  | list (items : List Shape)
  | record (members : List (String × Shape))
  | other

def shapes : Json.Builder Shape where
  null := .null
  bool := fun _ => .other
  number := fun _ => .other
  string := fun s => some (s.elim .other .text)
  array := .list
  object := fun members =>
    some (match members.mapM fun m => m.1.map fun key => (key, m.2) with
      | some named => .record named
      | none => .other)

namespace Shape

-- The parts of a record in the order of `keys`, absent ones as `none`; a key of these may occur once. An
-- array gives the parts by position, and may stop early.
def parts? (keys : List String) : Shape → Option (List (Option Shape))
  | .list items =>
    if items.length ≤ keys.length then
      some (items.map some ++ List.replicate (keys.length - items.length) none)
    else none
  | .record members =>
    keys.mapM fun key =>
      match members.filter fun m => m.1 == key with
      | [] => some none
      | [m] => some (some m.2)
      | _ => none
  | _ => none

def text? : Shape → Option String
  | .text s => some s
  | _ => none

def list? : Shape → Option (List Shape)
  | .list items => some items
  | _ => none

def optionalText? : Option Shape → Option (Option String)
  | none => some none
  | some .null => some none
  | some s => s.text?.map some

def field? : Shape → Option FieldRecord
  | .list [name, type, cardinality] => return ⟨← name.text?, ← type.text?, ← cardinality.text?⟩
  | _ => none

def kind? (s : Shape) : Option KindRecord := do
  match ← s.parts? ["kind", "parent", "fields"] with
  | [some kind, parent, fields] =>
    let fields ← match fields with
      | none => some []
      | some fs => fs.list?.bind fun items => items.mapM field?
    return ⟨← kind.text?, ← optionalText? parent, fields⟩
  | _ => none

-- A table is an object with the key `kinds`, a record one with `kind`, `parent` and `fields`; unknown keys
-- are skipped.
def table? (s : Shape) : Option SchemaTable := do
  match ← s.parts? ["kinds"] with
  | [some kinds] => return ⟨← (← kinds.list?).mapM kind?⟩
  | _ => none

end Shape

def ofJson (text : String) : Except SchemaError SchemaTable :=
  match (Json.build? shapes none text).bind Shape.table? with
  | some table => .ok table
  | none => .error (.malformedTable "not a table of kinds")

end SchemaTable

def Registry.ofJson (origin : Nat) (text : String) : Except SchemaError Registry := do
  ofTable origin (← SchemaTable.ofJson text)

end TreeLowering
