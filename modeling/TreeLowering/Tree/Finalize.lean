import TreeLowering.Tree.Assign

namespace TreeLowering

mutual
-- The node as completion leaves it, and the first failure. A failure stops at its field and keeps what was
-- done before it; missing fields are reported together once every field has been passed.
def Node.finalize : Node → Node × Except NodeError Unit
  | .mk schema slots =>
    let (slots, outcome) := Slot.finalizeAll schema.kind schema.fields slots
    let outcome := match outcome with
      | .error e => .error e
      | .ok [] => .ok ()
      | .ok missing => .error (.incomplete schema.kind missing)
    (.mk schema slots, outcome)
termination_by structural n => n

-- The slots of a node, with the names of the mandatory fields among them that are unset.
def Slot.finalizeAll (kind : String) :
    List Field → List Slot → List Slot × Except NodeError (List String)
  | f :: fs, s :: ss =>
    match s with
    | .unset =>
      match f.cardinality with
      | .required | .oneOrMore =>
        let (ss, outcome) := Slot.finalizeAll kind fs ss
        (.unset :: ss, outcome.map (f.name :: ·))
      | .optional =>
        let (ss, outcome) := Slot.finalizeAll kind fs ss
        (.explicitNone :: ss, outcome)
      | .zeroOrMore =>
        let (ss, outcome) := Slot.finalizeAll kind fs ss
        (.value (.tuple []) :: ss, outcome)
      | .unknown tag => (.unset :: ss, .error (.unknownModifier kind f.name tag))
    | .explicitNone =>
      let (ss, outcome) := Slot.finalizeAll kind fs ss
      (.explicitNone :: ss, outcome)
    | .value v =>
      match v.finalizeIn f.cardinality.isSequence with
      | (v, .error e) => (.value v :: ss, .error e)
      | (v, .ok ()) =>
        let (ss, outcome) := Slot.finalizeAll kind fs ss
        (.value v :: ss, outcome)
  | _, ss => (ss, .ok [])
termination_by structural _ ss => ss

-- A value of a repeated field is completed as a sequence, one of another field only if it is a node.
def Value.finalizeIn (sequence : Bool) : Value → Value × Except NodeError Unit
  | .list items =>
    if sequence then
      let (items, outcome) := Value.finalizeAll items
      (.tuple items, outcome)
    else (.list items, .ok ())
  | .tuple items =>
    if sequence then
      let (items, outcome) := Value.finalizeAll items
      (.tuple items, outcome)
    else (.tuple items, .ok ())
  | .node n =>
    if sequence then (.node n, .ok ())
    else
      let (n, outcome) := n.finalize
      (.node n, outcome)
  | v => (v, .ok ())
termination_by structural v => v

-- The nodes among the elements of a sequence, up to the first that fails.
def Value.finalizeAll : List Value → List Value × Except NodeError Unit
  | [] => ([], .ok ())
  | v :: rest =>
    match v with
    | .node n =>
      match n.finalize with
      | (n, .error e) => (.node n :: rest, .error e)
      | (n, .ok ()) =>
        let (rest, outcome) := Value.finalizeAll rest
        (.node n :: rest, outcome)
    | v =>
      let (rest, outcome) := Value.finalizeAll rest
      (v :: rest, outcome)
termination_by structural vs => vs
end

end TreeLowering
