import TreeLowering.Proofs.Completion
import TreeLowering.Schema.CoreKinds
import Mathlib.Data.List.Nodup

namespace TreeLowering

namespace Schema

def decEq : (s t : Schema) → Decidable (s = t)
  | ⟨k, none, fs, o, g⟩, ⟨k', none, fs', o', g'⟩ =>
    decidable_of_iff (k = k' ∧ fs = fs' ∧ o = o' ∧ g = g') (by simp)
  | ⟨k, some p, fs, o, g⟩, ⟨k', some p', fs', o', g'⟩ =>
    have := decEq p p'
    decidable_of_iff (k = k' ∧ p = p' ∧ fs = fs' ∧ o = o' ∧ g = g') (by simp)
  | ⟨_, none, _, _, _⟩, ⟨_, some _, _, _, _⟩ => .isFalse (by simp)
  | ⟨_, some _, _, _, _⟩, ⟨_, none, _, _, _⟩ => .isFalse (by simp)

instance : DecidableEq Schema := decEq

end Schema

namespace Core

def ast : Schema := ⟨"AST", none, [], 0, 0⟩

-- The groups of kinds hang under the root kind and have no fields, so the fields of a kind are its own.
def group (kind : String) : Schema := ⟨kind, some ast, [], 0, 0⟩

def member (parent kind : String) (fields : List Field) : Schema := ⟨kind, some (group parent), fields, 0, 0⟩

def statement (kind : String) (fields : List Field) : Schema := member "stmt" kind fields

def expression (kind : String) (fields : List Field) : Schema := member "expr" kind fields

def one (name kind : String) : Field := ⟨name, .kind kind, .required⟩
def maybe (name kind : String) : Field := ⟨name, .kind kind, .optional⟩
def many (name kind : String) : Field := ⟨name, .kind kind, .zeroOrMore⟩
def several (name kind : String) : Field := ⟨name, .kind kind, .oneOrMore⟩

def forLoop : Schema := statement "For" [one "target" "expr", one "iter" "expr", several "body" "stmt",
  many "orelse" "stmt", ⟨"type_comment", .string, .optional⟩]

def augAssign : Schema :=
  statement "AugAssign" [one "target" "expr", one "op" "operator", one "value" "expr"]

def assertion : Schema := statement "Assert" [one "test" "expr", maybe "msg" "expr"]

def assign : Schema := statement "Assign" [several "targets" "expr", one "value" "expr",
  ⟨"type_comment", .string, .optional⟩]

def whileLoop : Schema := statement "While" [one "test" "expr", several "body" "stmt", many "orelse" "stmt"]

def ifThen : Schema := statement "If" [one "test" "expr", several "body" "stmt", many "orelse" "stmt"]

def raise : Schema := statement "Raise" [maybe "exc" "expr", maybe "cause" "expr"]

def tryExcept : Schema := statement "Try" [several "body" "stmt", many "handlers" "excepthandler",
  many "orelse" "stmt", many "finalbody" "stmt"]

def handler : Schema := member "excepthandler" "ExceptHandler" [maybe "type" "expr",
  ⟨"name", .identifier, .optional⟩, several "body" "stmt"]

def leave : Schema := statement "Break" []

def name : Schema := expression "Name" [⟨"id", .identifier, .required⟩, one "ctx" "expr_context"]

def constant : Schema := expression "NameConstant" [⟨"value", .singleton, .required⟩]

def call : Schema := expression "Call" [one "func" "expr", many "args" "expr", many "keywords" "keyword"]

def binOp : Schema := expression "BinOp" [one "left" "expr", one "op" "operator", one "right" "expr"]

def unaryOp : Schema := expression "UnaryOp" [one "op" "unaryop", one "operand" "expr"]

def load : Schema := member "expr_context" "Load" []
def store : Schema := member "expr_context" "Store" []
def negation : Schema := member "unaryop" "Not" []

def schemas : List Schema := [forLoop, augAssign, assertion, assign, whileLoop, ifThen, raise, tryExcept, handler,
  leave, name, constant, call, binOp, unaryOp, load, store, negation]

-- The statements that the rules replace, and what a field that takes one of them can be declared for.
def replaced : List String := ["For", "AugAssign", "Assert"]

def takesReplaced (f : Field) : Bool :=
  (["stmt", "AST"] ++ replaced).any fun kind => f.type == .kind kind

def plainField (f : Field) : Bool :=
  (match f.cardinality with | .unknown _ => false | _ => true) && f.type != .object

def regularField (f : Field) : Bool :=
  plainField f && (!takesReplaced f || (f.type == .kind "stmt" && f.cardinality.isSequence))

def regular (s : Schema) : Bool :=
  s.fields.all regularField && ("Name" :: replaced).all fun kind => !s.isSubkindOf kind || s.kind == kind

end Core

theorem coreRegistry_regular : coreRegistry.schemas.all Core.regular = true ∧ coreRegistry.kinds.Nodup ∧
    Core.schemas.all (fun s => coreRegistry.get? s.kind = some s) = true := by
  decide +kernel

variable {s t : Schema} {f : Field} {n : Node}

theorem core_field (member : s ∈ coreRegistry.schemas) (field : f ∈ s.fields) :
    Core.regularField f = true := by
  have regular := List.all_eq_true.mp coreRegistry_regular.1 s member
  rw [Core.regular, Bool.and_eq_true] at regular
  exact List.all_eq_true.mp regular.1 f field

theorem core_plain : coreRegistry.Plain := by
  intro s member f field
  have regular := core_field member field
  rw [Core.regularField, Core.plainField, Bool.and_eq_true, Bool.and_eq_true] at regular
  refine ⟨fun tag unknown => ?_, fun object => ?_⟩
  · rw [unknown] at regular
    cases regular.1.1
  · rw [object] at regular
    cases regular.1.2

def Registry.Lowers (r : Registry) : Prop := ∀ s ∈ Core.schemas, r.get? s.kind = some s

theorem core_lowers : coreRegistry.Lowers := fun s lowering =>
  of_decide_eq_true (List.all_eq_true.mp coreRegistry_regular.2.2 s lowering)

theorem Registry.get_member {r : Registry} {kind : String} (found : r.get? kind = some s) : s ∈ r.schemas :=
  List.mem_of_find?_eq_some found

theorem core_member (lowering : s ∈ Core.schemas) : s ∈ coreRegistry.schemas :=
  Registry.get_member (core_lowers s lowering)

theorem core_unique (first : s ∈ coreRegistry.schemas) (second : t ∈ coreRegistry.schemas)
    (same : s.kind = t.kind) : s = t :=
  List.inj_on_of_nodup_map coreRegistry_regular.2.1 first second same

theorem core_kind (lowering : s ∈ Core.schemas) (typed : n.WellTyped coreRegistry) :
    n.kind = s.kind ↔ n.schema = s := by
  constructor
  · exact core_unique typed.member (core_member lowering)
  · intro same
    rw [Node.kind, same]

theorem Schema.self_subkind (s : Schema) : s.isSubkindOf s.kind = true := by
  cases s with
  | mk kind parent fields start origin =>
    cases parent <;> simp [Schema.isSubkindOf, Schema.chain]

theorem core_isA {kind : String} (leafKind : kind ∈ "Name" :: Core.replaced)
    (typed : n.WellTyped coreRegistry) : n.isA kind = true ↔ n.kind = kind := by
  have regular := List.all_eq_true.mp coreRegistry_regular.1 _ typed.member
  rw [Core.regular, Bool.and_eq_true] at regular
  have alone := List.all_eq_true.mp regular.2 kind leafKind
  constructor
  · intro isA
    rw [show n.schema.isSubkindOf kind = true from isA] at alone
    simp only [Bool.not_true, Bool.false_or, beq_iff_eq] at alone
    exact alone
  · intro same
    subst same
    exact n.schema.self_subkind

theorem replaced_schema (typed : n.WellTyped coreRegistry) (kind : n.kind ∈ Core.replaced) :
    n.schema = Core.forLoop ∨ n.schema = Core.augAssign ∨ n.schema = Core.assertion := by
  simp only [Core.replaced, List.mem_cons, List.not_mem_nil, or_false] at kind
  rcases kind with kind | kind | kind
  · exact .inl ((core_kind (s := Core.forLoop) (by simp [Core.schemas]) typed).mp kind)
  · exact .inr (.inl ((core_kind (s := Core.augAssign) (by simp [Core.schemas]) typed).mp kind))
  · exact .inr (.inr ((core_kind (s := Core.assertion) (by simp [Core.schemas]) typed).mp kind))

-- A statement that a rule could replace stands in a list of statements and nowhere else.
theorem replaced_place (member : s ∈ coreRegistry.schemas) (field : f ∈ s.fields)
    (typed : n.WellTyped coreRegistry) (kind : n.kind ∈ Core.replaced)
    (accepted : f.type.accepts (.node n) = true) :
    f.type = .kind "stmt" ∧ f.cardinality.isSequence = true := by
  have regular := core_field member field
  rw [Core.regularField, Bool.and_eq_true] at regular
  have takes : Core.takesReplaced f = true := by
    cases type : f.type with
    | object => exact absurd type (core_plain s member f field).flat
    | kind wanted =>
      rw [type] at accepted
      have isA : n.schema.isSubkindOf wanted = true := accepted
      unfold Core.takesReplaced
      rw [type]
      rcases replaced_schema typed kind with same | same | same <;> rw [same] at isA <;>
        simp [Core.forLoop, Core.augAssign, Core.assertion, Core.statement, Core.member, Core.group, Core.ast,
          Schema.isSubkindOf, Schema.chain] at isA <;> rcases isA with rfl | rfl | rfl <;> rfl
    | _ => rw [type] at accepted; cases accepted
  rw [takes] at regular
  simpa using regular.2

end TreeLowering
