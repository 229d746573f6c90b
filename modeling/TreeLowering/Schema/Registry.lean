import TreeLowering.Schema

namespace TreeLowering

structure FieldRecord where
  name : String
  type : String
  cardinality : String
  deriving DecidableEq, Repr

structure KindRecord where
  kind : String
  parent : Option String
  fields : List FieldRecord
  deriving DecidableEq, Repr

-- A table of kinds, each record after that of its parent.
structure SchemaTable where
  kinds : List KindRecord
  deriving DecidableEq, Repr

def KindRecord.ownFields (r : KindRecord) : List Field :=
  r.fields.map fun f => .ofTags f.name f.type f.cardinality

-- The schemas of one language in table order. `origin` marks the occasion on which they were loaded.
structure Registry where
  origin : Nat
  schemas : List Schema

namespace Registry

def empty (origin : Nat) : Registry := ⟨origin, []⟩

def get? (r : Registry) (kind : String) : Option Schema := r.schemas.find? fun s => s.kind == kind

def get (r : Registry) (kind : String) : Except SchemaError Schema :=
  match r.get? kind with
  | some s => .ok s
  | none => .error (.unknownKind kind)

def contains (r : Registry) (kind : String) : Bool := r.schemas.any fun s => s.kind == kind

def kinds (r : Registry) : List String := r.schemas.map Schema.kind

def size (r : Registry) : Nat := r.schemas.length

def isEmpty (r : Registry) : Bool := r.schemas.isEmpty

-- Adds a schema behind the others; a kind that is there already stays.
def insert (r : Registry) (s : Schema) : Except SchemaError Registry :=
  if r.contains s.kind then .error (.duplicateKind s.kind)
  else .ok ⟨r.origin, r.schemas ++ [s]⟩

-- Builds and adds the schema of one record. The parent has to be there already; the fields are checked
-- before the name of the kind.
def declare (r : Registry) (record : KindRecord) : Except SchemaError Registry := do
  let parent ← match record.parent with
    | none => pure none
    | some parent => match r.get? parent with
      | some s => pure (some s)
      | none => throw (.unknownParent record.kind parent)
  r.insert (← Schema.build r.origin record.kind parent record.ownFields)

-- Builds every schema of a table, up to the first record that breaks a rule.
def ofTable (origin : Nat) (table : SchemaTable) : Except SchemaError Registry :=
  table.kinds.foldlM declare (empty origin)

end Registry

end TreeLowering
