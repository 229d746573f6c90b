import TreeLowering.Schema.Field

namespace TreeLowering

inductive SchemaError where
  | duplicateField (kind field declaredBy : String)
  | duplicateKind (kind : String)
  | unknownParent (kind parent : String)
  | unknownKind (kind : String)
  | malformedTable (detail : String)
  deriving DecidableEq, Repr

def SchemaError.message : SchemaError → String
  | .duplicateField kind field declaredBy =>
    "duplicate field '" ++ field ++ "' in kind '" ++ kind ++ "' (already declared by '" ++ declaredBy ++ "')"
  | .duplicateKind kind => "duplicate kind '" ++ kind ++ "' in schema table"
  | .unknownParent kind parent => "kind '" ++ kind ++ "' names unknown parent '" ++ parent ++ "'"
  | .unknownKind kind => "unknown node kind '" ++ kind ++ "'"
  | .malformedTable detail => "malformed schema table: " ++ detail

-- The schema of one node kind. `fields` are the effective fields, inherited ones first, and `ownStart` is
-- where the kind's own begin. `origin` tells apart schemas that were loaded on different occasions.
structure Schema where
  kind : String
  parent : Option Schema
  fields : List Field
  ownStart : Nat
  origin : Nat

namespace Schema

def chain : Schema → List Schema
  | s@⟨_, none, _, _, _⟩ => [s]
  | s@⟨_, some p, _, _, _⟩ => s :: p.chain

def ownFields (s : Schema) : List Field := s.fields.drop s.ownStart

def fieldIndex? (s : Schema) (name : String) : Option Nat :=
  s.fields.findIdx? fun f => f.name == name

-- A field by name: the kind's own fields first, then the chain outward.
def resolve? (name : String) : Schema → Option Field
  | s@⟨_, none, _, _, _⟩ => s.ownFields.find? fun f => f.name == name
  | s@⟨_, some p, _, _, _⟩ => (s.ownFields.find? fun f => f.name == name) <|> p.resolve? name

def isSubkindOf (s : Schema) (kind : String) : Bool := s.chain.any fun t => t.kind == kind

-- Two schemas are one when they were loaded together under one name.
def same (s t : Schema) : Bool := s.origin == t.origin && s.kind == t.kind

def declaringKind (index : Nat) : Schema → String
  | ⟨kind, none, _, _, _⟩ => kind
  | ⟨kind, some p, _, start, _⟩ => if index < start then p.declaringKind index else kind

-- Adds a kind's own fields behind those it has; a name that occurs already belongs to the parent below
-- `start` and to the kind itself from there on.
def extend (kind : String) (parent : Option Schema) (start : Nat) :
    List Field → List Field → Except SchemaError (List Field)
  | fields, [] => .ok fields
  | fields, f :: own =>
    match fields.findIdx? fun g => g.name == f.name with
    | none => extend kind parent start (fields ++ [f]) own
    | some index =>
      let declaredBy := match parent with
        | some p => if index < start then p.declaringKind index else kind
        | none => kind
      .error (.duplicateField kind f.name declaredBy)

def build (origin : Nat) (kind : String) (parent : Option Schema) (own : List Field) :
    Except SchemaError Schema := do
  let inherited := (parent.map Schema.fields).getD []
  let fields ← extend kind parent inherited.length inherited own
  return ⟨kind, parent, fields, inherited.length, origin⟩

def root (origin : Nat) (kind : String) (own : List Field) : Except SchemaError Schema :=
  build origin kind none own

def derived (origin : Nat) (kind : String) (parent : Schema) (own : List Field) :
    Except SchemaError Schema :=
  build origin kind (some parent) own

-- The printed form: `Return <: stmt (expr? value)`.
def render (s : Schema) : String :=
  let parent := match s.parent with
    | some p => " <: " ++ p.kind
    | none => ""
  let fields := match s.fields with
    | [] => ""
    | fs => " (" ++ ", ".intercalate (fs.map Field.render) ++ ")"
  s.kind ++ parent ++ fields

end Schema

end TreeLowering
