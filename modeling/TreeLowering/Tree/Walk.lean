import TreeLowering.Tree.Assign

namespace TreeLowering

section Survey

-- Every walk goes through the fields in schema order, to the node of a field and to the nodes among the
-- elements of a sequence, and not into sequences inside of sequences.
variable {σ : Type} (look : Nat → Node → σ → σ × Bool)

mutual
-- A survey of a tree. `look` meets each node on the way down, with its depth and what is known so far, and
-- says whether to go on below it.
def Node.survey (depth : Nat) : Node → σ → σ
  | .mk schema slots, s =>
    let (s, below) := look depth (.mk schema slots) s
    if below then Slot.surveyAll (depth + 1) slots s else s
termination_by structural n => n

def Slot.surveyAll (depth : Nat) : List Slot → σ → σ
  | [], s => s
  | slot :: rest, s =>
    let s := match slot with
      | .value v => v.survey depth s
      | _ => s
    Slot.surveyAll depth rest s
termination_by structural ss => ss

def Value.survey (depth : Nat) : Value → σ → σ
  | .node n, s => n.survey depth s
  | .list items, s => Value.surveyAll depth items s
  | .tuple items, s => Value.surveyAll depth items s
  | _, s => s
termination_by structural v => v

def Value.surveyAll (depth : Nat) : List Value → σ → σ
  | [], s => s
  | v :: rest, s =>
    let s := match v with
      | .node n => n.survey depth s
      | _ => s
    Value.surveyAll depth rest s
termination_by structural vs => vs
end

end Survey

def Node.count (n : Node) : Nat := n.survey (fun _ _ count => (count + 1, true)) 0 0

-- What comes in the place of a node: one value, several elements, the word that there is no value, or
-- nothing at all.
inductive Replacement where
  | value (v : Value)
  | splice (vs : List Value)
  | explicitNone
  | delete

namespace Replacement

def ofNode (n : Node) : Replacement := value (.node n)

def ofNodes (nodes : List Node) : Replacement := splice (nodes.map .node)

def elements : Replacement → List Value
  | value v => [v]
  | splice vs => vs
  | explicitNone => [.none]
  | delete => []

end Replacement

namespace Field

-- The slot of a field whose node was replaced. A value is assigned and so checked, several count as a
-- list.
def install (kind : String) (f : Field) : Replacement → Except NodeError Slot
  | .value v => f.assign kind v
  | .splice vs => f.assign kind (.list vs)
  | .explicitNone => .ok .explicitNone
  | .delete => .ok .unset

-- The slot of a rebuilt sequence. Its elements are not checked again, but it must not become empty where
-- one element is required.
def refill (kind : String) (f : Field) (form : List Value → Value) (items : List Value) :
    Except NodeError Slot :=
  if items.isEmpty && f.cardinality == .oneOrMore then .error (f.emptied kind)
  else .ok (.value (form items))

end Field

-- A computation in the course of a transformation. Its state outlives a failure.
abbrev Walk (σ ε α : Type) := ExceptT ε (StateM σ) α

class OfNodeError (ε : Type) where
  ofNodeError : NodeError → ε

instance : OfNodeError NodeError := ⟨id⟩

def Walk.ofAssign {σ ε α : Type} [OfNodeError ε] : Except NodeError α → Walk σ ε α
  | .ok a => pure a
  | .error e => throw (OfNodeError.ofNodeError e)

section Children

variable {σ ε : Type} [OfNodeError ε] (visit : Node → Walk σ ε Replacement)

def Value.transformAll : List Value → Walk σ ε (List Value)
  | [] => pure []
  | .node n :: rest => do
    let r ← visit n
    let rest ← Value.transformAll rest
    return r.elements ++ rest
  | v :: rest => do
    let rest ← Value.transformAll rest
    return v :: rest

def Slot.transform (kind : String) (f : Field) : Slot → Walk σ ε Slot
  | .value (.node n) => do
    let r ← visit n
    Walk.ofAssign (f.install kind r)
  | .value (.list items) => do
    let items ← Value.transformAll visit items
    Walk.ofAssign (f.refill kind .list items)
  | .value (.tuple items) => do
    let items ← Value.transformAll visit items
    Walk.ofAssign (f.refill kind .tuple items)
  | s => pure s

def Slot.transformAll (kind : String) : List Field → List Slot → Walk σ ε (List Slot)
  | f :: fs, s :: ss => do
    let s ← s.transform visit kind f
    let ss ← Slot.transformAll kind fs ss
    return s :: ss
  | _, ss => pure ss

def Node.transformChildren (n : Node) : Walk σ ε Node := do
  let slots ← Slot.transformAll visit n.kind n.schema.fields n.slots
  return .mk n.schema slots

end Children

-- What a transformer does on meeting a node: it replaces it as it stands, or goes through the children
-- first and then on with the node that they leave.
inductive Visit (σ ε : Type) where
  | replace (r : Replacement)
  | descend (leave : Node → Walk σ ε Replacement)

section Transformer

variable {σ ε : Type} [OfNodeError ε] (enter : Node → Walk σ ε (Visit σ ε))

mutual
def Node.transform : Node → Walk σ ε Replacement
  | .mk schema slots => do
    match ← enter (.mk schema slots) with
    | .replace r => return r
    | .descend leave => do
      let slots ← Slot.descendAll schema.kind schema.fields slots
      leave (.mk schema slots)
termination_by structural n => n

def Slot.descendAll (kind : String) : List Field → List Slot → Walk σ ε (List Slot)
  | f :: fs, s :: ss => do
    let s ← match s with
      | .value v => v.descend kind f
      | s => pure s
    let ss ← Slot.descendAll kind fs ss
    return s :: ss
  | _, ss => pure ss
termination_by structural _ ss => ss

def Value.descend (kind : String) (f : Field) : Value → Walk σ ε Slot
  | .node n => do
    let r ← n.transform
    Walk.ofAssign (f.install kind r)
  | .list items => do
    let items ← Value.descendAll items
    Walk.ofAssign (f.refill kind .list items)
  | .tuple items => do
    let items ← Value.descendAll items
    Walk.ofAssign (f.refill kind .tuple items)
  | v => return .value v
termination_by structural v => v

def Value.descendAll : List Value → Walk σ ε (List Value)
  | [] => pure []
  | v :: rest =>
    match v with
    | .node n => do
      let r ← n.transform
      let rest ← Value.descendAll rest
      return r.elements ++ rest
    | v => do
      let rest ← Value.descendAll rest
      return v :: rest
termination_by structural vs => vs
end

end Transformer

def Visit.generic {σ ε : Type} : Visit σ ε := .descend fun n => return .ofNode n

end TreeLowering
