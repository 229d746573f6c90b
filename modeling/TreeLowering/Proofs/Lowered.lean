import TreeLowering.Proofs.CoreSchemas
import TreeLowering.Rewrite.Rules

namespace TreeLowering

namespace Node

def filled (n : Node) : List (String × Value) → Node
  | [] => n
  | (name, v) :: rest => (n.put ((n.schema.fieldIndex? name).getD 0) (.value v)).filled rest

theorem setNamed_filled {n : Node} {named : List (String × Value)}
    (fits : ∀ field ∈ named, ∃ f, n.schema.field? field.1 = some f ∧ f.Fits field.2) :
    n.setNamed named = .ok (n.filled named) := by
  induction named generalizing n with
  | nil => rfl
  | cons field rest ih =>
    obtain ⟨name, v⟩ := field
    obtain ⟨f, declared, fitting⟩ := fits _ (List.mem_cons_self ..)
    obtain ⟨index, found, isField⟩ := Option.bind_eq_some_iff.mp declared
    have first : n.set name v = .ok (n.put index (.value v)) :=
      set_exact.mpr ⟨index, f, _, found, isField, Field.assign_value.mpr fitting, rfl⟩
    refine setNamed_cons.mpr ⟨_, first, ?_⟩
    rw [filled, found, Option.getD_some]
    exact ih fun field member => fits field (List.mem_cons_of_mem _ member)

end Node

section Fits

variable {name kind : String} {n : Node} {items : List Value}

theorem ElementType.accepts_kind {v : Value} :
    (ElementType.kind kind).accepts v = true ↔ ∃ n, v = .node n ∧ n.isA kind = true := by
  cases v <;> simp [ElementType.accepts]

@[simp] theorem Core.one_fits {v : Value} :
    (Core.one name kind).Fits v ↔ (ElementType.kind kind).accepts v = true := Iff.rfl

@[simp] theorem Core.maybe_fits {v : Value} :
    (Core.maybe name kind).Fits v ↔ (ElementType.kind kind).accepts v = true := by
  constructor
  · exact fun fits => fits.2
  · intro accepted
    obtain ⟨n, rfl, -⟩ := ElementType.accepts_kind.mp accepted
    exact ⟨rfl, accepted⟩

@[simp] theorem Core.many_fits : (Core.many name kind).Fits (.list items) ↔
    ∀ item ∈ items, (ElementType.kind kind).accepts item = true :=
  (Field.fits_items rfl rfl).trans ⟨fun fits => fits.2, fun all => ⟨nofun, all⟩⟩

@[simp] theorem Core.several_fits : (Core.several name kind).Fits (.list items) ↔
    items ≠ [] ∧ ∀ item ∈ items, (ElementType.kind kind).accepts item = true :=
  (Field.fits_items rfl rfl).trans ⟨fun fits => ⟨fits.1 rfl, fits.2⟩, fun fits => ⟨fun _ => fits.1, fits.2⟩⟩

@[simp] theorem accepts_node : (ElementType.kind kind).accepts (.node n) = n.isA kind := rfl

end Fits

namespace Registry

variable {r : Registry} (lowers : r.Lowers)

include lowers

theorem node_filled {s : Schema} {named : List (String × Value)} (lowering : s ∈ Core.schemas)
    (fits : ∀ field ∈ named, ∃ f, s.field? field.1 = some f ∧ f.Fits field.2) :
    r.node s.kind named = .ok ((Node.empty s).filled named) := by
  have known : r.schema s.kind = .ok s := by
    rw [schema, get, lowers s lowering]
    rfl
  rw [node, known]
  change (Node.ofFields s named).mapError RewriteError.node = _
  rw [Node.ofFields_setNamed, Node.setNamed_filled (n := .empty s) fits]
  rfl

theorem leaf_empty {s : Schema} (lowering : s ∈ Core.schemas) :
    r.leaf s.kind = .ok (.empty s) := by
  rw [leaf, schema, get, lowers s lowering]
  rfl

end Registry

theorem ok_then {ε α β : Type} {a : α} {next : α → Except ε β} : (Except.ok a >>= next) = next a := rfl

namespace Lowered

def load (id : String) : Node := .mk Core.name [.value (.str id), .value (.node (.empty Core.load))]

def store (id : String) : Node := .mk Core.name [.value (.str id), .value (.node (.empty Core.store))]

def truth (b : Bool) : Node := .mk Core.constant [.value (.bool b)]

def assign (target value : Node) : Node :=
  .mk Core.assign [.value (.ofNodes [target]), .value (.node value), .unset]

def call (func : String) (args : List Node) : Node :=
  .mk Core.call [.value (.node (load func)), .value (.ofNodes args), .unset]

def whileTrue (body : List Value) : Node :=
  .mk Core.whileLoop [.value (.node (truth true)), .value (.list body), .unset]

def ifThen (test : Node) (body orelse : List Value) : Node :=
  .mk Core.ifThen [.value (.node test), .value (.list body), .value (.list orelse)]

def handler (exception : String) (body : List Node) : Node :=
  .mk Core.handler [.value (.node (load exception)), .unset, .value (.ofNodes body)]

def tryExcept (body : List Node) (exception : String) (handled : List Node) : Node :=
  .mk Core.tryExcept [.value (.ofNodes body), .value (.ofNodes [handler exception handled]), .unset, .unset]

def negation (operand : Node) : Node :=
  .mk Core.unaryOp [.value (.node (.empty Core.negation)), .value (.node operand)]

def raise (exc : Node) : Node := .mk Core.raise [.value (.node exc), .unset]

def binOp (left op right : Node) : Node :=
  .mk Core.binOp [.value (.node left), .value (.node op), .value (.node right)]

end Lowered

namespace Registry

open Lowered (handler)

variable {r : Registry} (lowers : r.Lowers) {id : String} {target value test operand exc left op right : Node}
  {args : List Node} {body orelse : List Value}

include lowers

theorem nameIn_made {s : Schema} (lowering : s ∈ Core.schemas) (context : s.isSubkindOf "expr_context" = true)
    (valid : Text.isIdentifier id = true) : r.nameIn s.kind id =
      .ok (.mk Core.name [.value (.str id), .value (.node (.empty s))]) := by
  rw [nameIn, leaf_empty lowers lowering]
  refine node_filled lowers (s := Core.name) (by simp [Core.schemas]) ?_
  simp only [List.forall_mem_cons, List.not_mem_nil, false_implies, implies_true, and_true]
  exact ⟨⟨_, rfl, valid⟩, ⟨_, rfl, context⟩⟩

theorem load_made (valid : Text.isIdentifier id = true) : r.load id = .ok (Lowered.load id) :=
  nameIn_made lowers (s := Core.load) (by simp [Core.schemas]) rfl valid

theorem store_made (valid : Text.isIdentifier id = true) : r.store id = .ok (Lowered.store id) :=
  nameIn_made lowers (s := Core.store) (by simp [Core.schemas]) rfl valid

theorem truth_made (b : Bool) : r.constant (.bool b) = .ok (Lowered.truth b) := by
  refine node_filled lowers (s := Core.constant) (by simp [Core.schemas]) ?_
  simp only [List.forall_mem_cons, List.not_mem_nil, false_implies, implies_true, and_true]
  exact ⟨_, rfl, rfl⟩

theorem assignTo_made (isTarget : target.isA "expr" = true) (isValue : value.isA "expr" = true) :
    r.assignTo target value = .ok (Lowered.assign target value) := by
  refine node_filled lowers (s := Core.assign) (by simp [Core.schemas]) ?_
  simp only [List.forall_mem_cons, List.not_mem_nil, false_implies, implies_true, and_true]
  exact ⟨⟨Core.several "targets" "expr", rfl, by simpa [Value.ofNodes] using isTarget⟩,
    ⟨Core.one "value" "expr", rfl, isValue⟩⟩

theorem assign_made (valid : Text.isIdentifier id = true) (isValue : value.isA "expr" = true) :
    r.assign id value = .ok (Lowered.assign (Lowered.store id) value) := by
  rw [assign, store_made lowers valid]
  exact assignTo_made lowers rfl isValue

theorem call_made {func : String} (valid : Text.isIdentifier func = true)
    (areArgs : ∀ arg ∈ args, arg.isA "expr" = true) :
    r.call func args = .ok (Lowered.call func args) := by
  rw [call, load_made lowers valid]
  refine node_filled lowers (s := Core.call) (by simp [Core.schemas]) ?_
  simp only [List.forall_mem_cons, List.not_mem_nil, false_implies, implies_true, and_true]
  exact ⟨⟨Core.one "func" "expr", rfl, rfl⟩,
    ⟨Core.many "args" "expr", rfl, by simpa [Value.ofNodes] using areArgs⟩⟩

theorem whileTrue_made (nonempty : body ≠ [])
    (statements : ∀ item ∈ body, (ElementType.kind "stmt").accepts item = true) :
    r.whileTrue body = .ok (Lowered.whileTrue body) := by
  rw [whileTrue, truth_made lowers]
  refine node_filled lowers (s := Core.whileLoop) (by simp [Core.schemas]) ?_
  simp only [List.forall_mem_cons, List.not_mem_nil, false_implies, implies_true, and_true]
  exact ⟨⟨Core.one "test" "expr", rfl, rfl⟩,
    ⟨Core.several "body" "stmt", rfl, Core.several_fits.mpr ⟨nonempty, statements⟩⟩⟩

theorem ifThen_made (isTest : test.isA "expr" = true) (nonempty : body ≠ [])
    (statements : ∀ item ∈ body, (ElementType.kind "stmt").accepts item = true)
    (others : ∀ item ∈ orelse, (ElementType.kind "stmt").accepts item = true) :
    r.ifThen test body orelse = .ok (Lowered.ifThen test body orelse) := by
  refine node_filled lowers (s := Core.ifThen) (by simp [Core.schemas]) ?_
  simp only [List.forall_mem_cons, List.not_mem_nil, false_implies, implies_true, and_true]
  exact ⟨⟨Core.one "test" "expr", rfl, isTest⟩,
    ⟨Core.several "body" "stmt", rfl, Core.several_fits.mpr ⟨nonempty, statements⟩⟩,
    ⟨Core.many "orelse" "stmt", rfl, Core.many_fits.mpr others⟩⟩

theorem tryExcept_made {tried handled : List Node} {exception : String}
    (valid : Text.isIdentifier exception = true) (triedSome : tried ≠ []) (handledSome : handled ≠ [])
    (tries : ∀ n ∈ tried, n.isA "stmt" = true) (handles : ∀ n ∈ handled, n.isA "stmt" = true) :
    r.tryExcept tried exception handled = .ok (Lowered.tryExcept tried exception handled) := by
  have caught : r.node "ExceptHandler"
      [("type", .node (Lowered.load exception)), ("body", .ofNodes handled)] =
        .ok (handler exception handled) := by
    refine node_filled lowers (s := Core.handler) (by simp [Core.schemas]) ?_
    simp only [List.forall_mem_cons, List.not_mem_nil, false_implies, implies_true, and_true]
    exact ⟨⟨Core.maybe "type" "expr", rfl, Core.maybe_fits.mpr rfl⟩,
      ⟨Core.several "body" "stmt", rfl, by simpa [Value.ofNodes] using ⟨handledSome, handles⟩⟩⟩
  rw [tryExcept, load_made lowers valid, ok_then, caught, ok_then]
  refine node_filled lowers (s := Core.tryExcept) (by simp [Core.schemas]) ?_
  simp only [List.forall_mem_cons, List.not_mem_nil, false_implies, implies_true, and_true]
  exact ⟨⟨Core.several "body" "stmt", rfl, by simpa [Value.ofNodes] using ⟨triedSome, tries⟩⟩,
    ⟨Core.many "handlers" "excepthandler", rfl, by simp [Value.ofNodes]; rfl⟩⟩

theorem negation_made (isOperand : operand.isA "expr" = true) :
    r.negation operand = .ok (Lowered.negation operand) := by
  rw [negation, show r.leaf "Not" = .ok (.empty Core.negation) from
    leaf_empty lowers (s := Core.negation) (by simp [Core.schemas])]
  refine node_filled lowers (s := Core.unaryOp) (by simp [Core.schemas]) ?_
  simp only [List.forall_mem_cons, List.not_mem_nil, false_implies, implies_true, and_true]
  exact ⟨⟨Core.one "op" "unaryop", rfl, rfl⟩, ⟨Core.one "operand" "expr", rfl, isOperand⟩⟩

theorem raise_made (isException : exc.isA "expr" = true) :
    r.raise exc = .ok (Lowered.raise exc) := by
  refine node_filled lowers (s := Core.raise) (by simp [Core.schemas]) ?_
  simp only [List.forall_mem_cons, List.not_mem_nil, false_implies, implies_true, and_true]
  exact ⟨Core.maybe "exc" "expr", rfl, Core.maybe_fits.mpr isException⟩

theorem binOp_made (isLeft : left.isA "expr" = true) (isOp : op.isA "operator" = true)
    (isRight : right.isA "expr" = true) :
    r.node "BinOp" [("left", .node left), ("op", .node op), ("right", .node right)] =
      .ok (Lowered.binOp left op right) := by
  refine node_filled lowers (s := Core.binOp) (by simp [Core.schemas]) ?_
  simp only [List.forall_mem_cons, List.not_mem_nil, false_implies, implies_true, and_true]
  exact ⟨⟨Core.one "left" "expr", rfl, isLeft⟩, ⟨Core.one "op" "operator", rfl, isOp⟩,
    ⟨Core.one "right" "expr", rfl, isRight⟩⟩

end Registry

end TreeLowering
