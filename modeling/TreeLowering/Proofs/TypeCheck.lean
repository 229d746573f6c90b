import TreeLowering.Proofs.Calls

namespace TreeLowering

namespace Field

def fits (f : Field) (v : Value) : Bool :=
  match f.cardinality with
  | .required => f.type.accepts v
  | .optional => !v.isNone && f.type.accepts v
  | .zeroOrMore => v.items?.any fun items => items.all f.type.accepts
  | .oneOrMore => v.items?.any fun items => !items.isEmpty && items.all f.type.accepts
  | .unknown _ => true

theorem fits_iff {f : Field} {v : Value} : f.fits v = true ↔ f.Fits v := by
  unfold fits Fits
  cases f.cardinality <;> cases v.items? <;> simp

instance (f : Field) (v : Value) : Decidable (f.Fits v) := decidable_of_iff _ fits_iff

end Field

mutual
def Node.decTyped (r : Registry) : (n : Node) → Decidable (n.WellTyped r)
  | .mk schema slots =>
    have := Slot.decAllTyped r schema.fields slots
    inferInstanceAs (Decidable (schema ∈ r.schemas ∧ Slot.AllTyped r schema.fields slots))
termination_by structural n => n

def Slot.decAllTyped (r : Registry) : (fs : List Field) → (ss : List Slot) → Decidable (Slot.AllTyped r fs ss)
  | [], [] => .isTrue trivial
  | f :: fs, s :: ss =>
    have := Slot.decTyped r f s
    have := Slot.decAllTyped r fs ss
    inferInstanceAs (Decidable (s.Typed r f ∧ Slot.AllTyped r fs ss))
  | [], _ :: _ => .isFalse id
  | _ :: _, [] => .isFalse id
termination_by structural _ ss => ss

def Slot.decTyped (r : Registry) (f : Field) : (s : Slot) → Decidable (s.Typed r f)
  | .unset => .isTrue trivial
  | .explicitNone => inferInstanceAs (Decidable (f.cardinality = .optional))
  | .value v =>
    have := Value.decTyped r v
    inferInstanceAs (Decidable (f.Fits v ∧ v.WellTyped r))
termination_by structural s => s

def Value.decTyped (r : Registry) : (v : Value) → Decidable (v.WellTyped r)
  | .node n => n.decTyped r
  | .list items => Value.decAllTyped r items
  | .tuple items => Value.decAllTyped r items
  | .none | .bool _ | .int _ | .float _ | .complex _ | .str _ | .bytes _ => .isTrue trivial
termination_by structural v => v

def Value.decAllTyped (r : Registry) : (items : List Value) → Decidable (Value.AllTyped r items)
  | [] => .isTrue trivial
  | v :: rest =>
    have := v.decTyped r
    have := Value.decAllTyped r rest
    inferInstanceAs (Decidable (v.WellTyped r ∧ Value.AllTyped r rest))
termination_by structural items => items
end

instance (r : Registry) (n : Node) : Decidable (n.WellTyped r) := n.decTyped r

-- Kinds beside those of the lowerings. A tree over all these is checked without building the registry.
def Core.others : List Schema :=
  [statement "Global" [⟨"names", .identifier, .oneOrMore⟩],
    statement "ImportFrom" [⟨"module", .string, .optional⟩, ⟨"names", .kind "alias", .oneOrMore⟩,
      ⟨"level", .int, .optional⟩],
    ⟨"alias", some ast, [⟨"name", .string, .required⟩, ⟨"asname", .identifier, .optional⟩], 0, 0⟩,
    expression "Attribute" [one "value" "expr", ⟨"attr", .identifier, .required⟩, one "ctx" "expr_context"],
    expression "IntLiteral" [⟨"n", .int, .required⟩], expression "FloatLiteral" [⟨"n", .float, .required⟩],
    member "operator" "Add" []]

theorem coreRegistry_others :
    Core.others.all (fun s => coreRegistry.get? s.kind = some s) = true := by
  decide +kernel

theorem core_other {s : Schema} (other : s ∈ Core.others) : coreRegistry.get? s.kind = some s :=
  of_decide_eq_true (List.all_eq_true.mp coreRegistry_others s other)

theorem core_typed {n : Node} (typed : n.WellTyped ⟨0, Core.schemas ++ Core.others⟩) :
    n.WellTyped coreRegistry := by
  refine n.typed_wider (fun s known => ?_) typed
  rcases List.mem_append.mp known with lowering | other
  · exact core_member lowering
  · exact Registry.get_member (core_other other)

end TreeLowering
