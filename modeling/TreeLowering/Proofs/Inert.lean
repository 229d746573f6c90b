import TreeLowering.Proofs.CarriedOver
import TreeLowering.Proofs.Numbering

namespace TreeLowering

-- Nothing in it is of a kind that a rule could replace.
def Node.Inert (n : Node) : Prop := ∀ m ∈ n.visited, m.kind ∉ Core.replaced

def Slot.Inert (held : Slot) : Prop := ∀ n ∈ held.children, n.Inert

namespace Core

-- Expressions, and what stands below them.
def expressive : List String := ["expr", "expr_context", "boolop", "operator", "unaryop", "cmpop", "comprehension",
  "arguments", "arg", "keyword"]

def expressiveField (f : Field) : Bool :=
  match f.type with
  | .kind kind => expressive.contains kind
  | .object => false
  | _ => true

def expressiveFields (s : Schema) : Bool :=
  !expressive.any (fun kind => s.isSubkindOf kind) || (!replaced.contains s.kind && s.fields.all expressiveField)

end Core

theorem coreRegistry_expressive : coreRegistry.schemas.all Core.expressiveFields = true := by decide +kernel

theorem ElementType.accepts_isA {type : ElementType} {n : Node} (flat : type ≠ .object)
    (accepted : type.accepts (.node n) = true) : ∃ kind, type = .kind kind ∧ n.isA kind = true := by
  cases type with
  | kind kind => exact ⟨kind, rfl, accepted⟩
  | object => exact absurd rfl flat
  | _ => cases accepted

theorem Slot.child_accepted {r : Registry} {f : Field} {s : Slot} {child : Node} (plain : f.Plain)
    (typed : s.Typed r f) (inside : child ∈ s.children) : f.type.accepts (.node child) = true := by
  cases s with
  | value v =>
    obtain ⟨fits, -⟩ := typed
    cases repeated : f.cardinality.isSequence with
    | true =>
      obtain ⟨items, found, -, all⟩ := Field.fits_repeated repeated fits
      rcases Value.mem_children.mp inside with rfl | ⟨_, same, member⟩
      · cases found
      · cases found.symm.trans same
        exact all _ member
    | false =>
      have accepted := ((Field.fits_single repeated plain.known).mp fits).2
      rcases Value.mem_children.mp inside with rfl | ⟨_, same, -⟩
      · exact accepted
      · rw [ElementType.accepts_flat plain.flat accepted] at same
        cases same
  | _ => cases inside

namespace Node

variable {n child : Node} {kind : String}

theorem Inert.below (inert : n.Inert) (inside : child ∈ n.children) : child.Inert :=
  fun m met => inert m (mem_visited.mpr (.inr ⟨child, inside, met⟩))

theorem inert_node (own : n.kind ∉ Core.replaced) (below : ∀ child ∈ n.children, child.Inert) : n.Inert := by
  intro m met
  rcases mem_visited.mp met with rfl | ⟨child, inside, further⟩
  · exact own
  · exact below child inside m further

theorem child_isA (typed : n.WellTyped coreRegistry) (inside : child ∈ n.children) :
    ∃ f ∈ n.schema.fields, ∃ kind, f.type = .kind kind ∧ child.isA kind = true := by
  obtain ⟨index, f, s, field, -, ofSlot, held⟩ := child_slot typed inside
  have member := List.mem_of_getElem? field
  have plain := core_plain n.schema typed.member f member
  exact ⟨f, member, ElementType.accepts_isA plain.flat (Slot.child_accepted plain ofSlot held)⟩

-- The induction goes down the tree: what stands in an expression is expressive itself.
theorem expressive_inert (n : Node) : n.WellTyped coreRegistry →
    ∀ kind ∈ Core.expressive, n.isA kind = true → n.Inert := by
  induction n using children_induct with
  | step n ih =>
    intro typed kind listed isKind
    have closed := List.all_eq_true.mp coreRegistry_expressive n.schema typed.member
    have isOne : Core.expressive.any (fun kind => n.schema.isSubkindOf kind) = true :=
      List.any_eq_true.mpr ⟨kind, listed, isKind⟩
    rw [Core.expressiveFields, isOne, Bool.not_true, Bool.false_or, Bool.and_eq_true] at closed
    obtain ⟨own, fields⟩ := closed
    refine inert_node (by simpa [Node.kind] using own) fun child inside => ?_
    obtain ⟨f, field, kind, type, isA⟩ := child_isA typed inside
    have below := List.all_eq_true.mp fields f field
    rw [Core.expressiveField, type] at below
    exact ih child inside (child_typed typed inside) kind (List.contains_iff_mem.mp below) isA

theorem expressions_inert (typed : n.WellTyped coreRegistry)
    (fields : n.schema.fields.all Core.expressiveField = true) : ∀ child ∈ n.children, child.Inert := by
  intro child inside
  obtain ⟨f, field, kind, type, isA⟩ := child_isA typed inside
  have below := List.all_eq_true.mp fields f field
  rw [Core.expressiveField, type] at below
  exact expressive_inert child (child_typed typed inside) kind (List.contains_iff_mem.mp below) isA

end Node

theorem Node.nodeAt_inert {n child : Node} {name : String} (typed : n.WellTyped coreRegistry)
    (found : n.nodeAt? name = some child)
    (fields : ∀ f ∈ n.schema.fields, f.name = name → Core.expressiveField f = true) : child.Inert := by
  obtain ⟨held, slot, isNode⟩ := Option.bind_eq_some_iff.mp found
  obtain ⟨index, place, there⟩ := Option.bind_eq_some_iff.mp slot
  obtain ⟨f, field, named⟩ := fieldIndex_field place
  have member := List.mem_of_getElem? field
  have inside : child ∈ held.children := by
    cases held with
    | value v =>
      cases v with
      | node c =>
        cases isNode
        exact List.mem_singleton_self _
      | _ => cases isNode
    | _ => cases isNode
  have plain := core_plain n.schema typed.member f member
  obtain ⟨kind, type, isKind⟩ := ElementType.accepts_isA plain.flat
    (Slot.child_accepted plain ((wellTyped_index.mp typed).2.2 index f held field there) inside)
  have expressive := fields f member named
  rw [Core.expressiveField, type] at expressive
  exact expressive_inert child (child_typed typed (nodeAt_child found)) kind (List.contains_iff_mem.mp expressive) isKind

theorem Node.Is.inert {n : Node} {kind : String} (isKind : n.Is coreRegistry kind)
    (listed : kind ∈ Core.expressive) : n.Inert :=
  n.expressive_inert isKind.2 kind listed isKind.1

theorem Slot.expression_inert {name : String} {held : Slot}
    (typed : held.Typed coreRegistry (Core.one name "expr")) : held.Inert := by
  intro n inside
  rcases Slot.one_cases typed with rfl | ⟨child, rfl, isExpression⟩
  · cases inside
  · rw [List.mem_singleton.mp inside]
    exact isExpression.inert (by decide)

def Slot.items (held : Slot) : List Value := (held.value?.bind Value.items?).getD []

theorem Slot.postorder_items {f : Field} {held : Slot} (type : f.type = .kind "stmt")
    (repeated : f.cardinality.isSequence = true) (typed : held.Typed coreRegistry f) :
    held.postorder = Value.postorderAll held.items := by
  rcases Slot.statements_cases type repeated typed with rfl | ⟨items, rfl | rfl, -⟩ <;> rfl

namespace Reference

variable {rules : List String} {s : NameSupply} {n : Node}

theorem loops_inert (inert : n.Inert) : loops rules n.postorder = [] := by
  refine List.filter_eq_nil_iff.mpr fun m settled => ?_
  have other := inert m (n.postorder_perm.mem_iff.mp settled)
  simp only [Core.replaced, List.mem_cons, not_or] at other
  simp [other.1]

theorem loops_children (below : ∀ child ∈ n.children, child.Inert) : loops rules n.beneath = [] := by
  rw [Node.beneath_children]
  unfold loops
  rw [List.filter_flatMap, List.flatMap_eq_nil_iff]
  exact fun child inside => loops_inert (below child inside)

def Unread (rules : List String) (n : Node) : Prop := ∀ m ∈ n.visited, reading? rules m = none

theorem Unread.below {child : Node} (unread : Unread rules n) (inside : child ∈ n.children) : Unread rules child :=
  fun m met => unread m (Node.mem_visited.mpr (.inr ⟨child, inside, met⟩))

theorem inert_unread (rules : List String) (inert : n.Inert) : Unread rules n :=
  fun m met => reading_other (inert m met)

theorem element_kept {v : Value}
    (kept : ∀ n, v = .node n → Unread rules n ∧ ∀ before, node rules s before n = n)
    (before : List Node) : element rules s before v = [v] := by
  cases v with
  | node n =>
    obtain ⟨unread, same⟩ := kept n rfl
    rw [element, same, place_unread (unread n n.self_visited)]
    rfl
  | _ => rfl

theorem items_kept {vs : List Value}
    (kept : ∀ n, .node n ∈ vs → Unread rules n ∧ ∀ before, node rules s before n = n)
    (before : List Node) : items rules s before vs = vs := by
  induction vs generalizing before with
  | nil => rfl
  | cons v rest ih =>
    have first := element_kept (v := v) (fun n same => kept n (same ▸ List.mem_cons_self ..)) before
    rw [items, first, ih fun n member => kept n (List.mem_cons_of_mem _ member)]
    rfl

theorem slot_kept {held : Slot}
    (kept : ∀ n ∈ held.children, Unread rules n ∧ ∀ before, node rules s before n = n) (before : List Node) :
    slot rules s before held = held := by
  cases held with
  | value v =>
    have elements : ∀ vs, v.items? = some vs → items rules s before vs = vs := fun vs found =>
      items_kept (fun n member => kept n (Value.mem_children.mpr (.inr ⟨vs, found, member⟩))) before
    refine congrArg Slot.value ?_
    cases v with
    | node n => exact congrArg Value.node ((kept n (List.mem_singleton_self _)).2 before)
    | list vs => exact congrArg Value.list (elements vs rfl)
    | tuple vs => exact congrArg Value.tuple (elements vs rfl)
    | _ => rfl
  | _ => rfl

theorem slots_kept {ss : List Slot}
    (kept : ∀ held ∈ ss, ∀ n ∈ held.children, Unread rules n ∧ ∀ before, node rules s before n = n)
    (before : List Node) : slots rules s before ss = ss := by
  induction ss generalizing before with
  | nil => rfl
  | cons held rest ih =>
    rw [List.forall_mem_cons] at kept
    rw [slots, slot_kept kept.1, ih kept.2]

theorem node_kept (n : Node) :
    (∀ child ∈ n.children, Unread rules child) → ∀ before, node rules s before n = n := by
  induction n using Node.children_induct with
  | step n ih =>
    intro below before
    have kept : ∀ held ∈ n.slots, ∀ child ∈ held.children,
        Unread rules child ∧ ∀ before, node rules s before child = child := by
      intro held slot child inside
      have member := Node.mem_children.mpr ⟨held, slot, inside⟩
      exact ⟨below child member, ih child member fun _ => (below child member).below⟩
    rw [node_slots, slots_kept kept]
    cases n
    rfl

theorem lowered_same (unread : Unread rules n) (before : List Node) : lowered rules s before n = .ofNode n := by
  have same : node rules s before n = n := node_kept n (fun _ => unread.below) before
  rw [lowered, same, place_unread (unread n n.self_visited)]

theorem node_inert (inert : n.Inert) (before : List Node) : node rules s before n = n :=
  node_kept n (fun _ => (inert_unread rules inert).below) before

theorem slot_inert (rules : List String) (s : NameSupply) {held : Slot} (inert : held.Inert) (before : List Node) :
    slot rules s before held = held ∧ loops rules held.postorder = [] := by
  refine ⟨slot_kept (fun n member => ⟨inert_unread rules (inert n member), node_inert (inert n member)⟩) before, ?_⟩
  rw [Slot.postorder_children]
  unfold loops
  rw [List.filter_flatMap, List.flatMap_eq_nil_iff]
  exact fun n member => loops_inert (inert n member)

theorem loop_kind (schema : n.schema = Core.forLoop) : n.kind = "For" := congrArg Schema.kind schema

theorem slot_items (held : Slot) (before : List Node) :
    (slot rules s before held).items = items rules s before held.items := by
  cases held with
  | value v => cases v <;> rfl
  | _ => rfl

-- The `else` part comes behind the loops in the body; the other parts are left alone.
theorem loop_rebuilt (rules : List String) (s : NameSupply) (typed : n.WellTyped coreRegistry)
    (schema : n.schema = Core.forLoop) (before : List Node) :
    (node rules s before n).nodeAt? "target" = n.nodeAt? "target" ∧
    (node rules s before n).nodeAt? "iter" = n.nodeAt? "iter" ∧
    (node rules s before n).itemsAt "body" = items rules s before (n.itemsAt "body") ∧
    (node rules s before n).itemsAt "orelse" =
      items rules s (before ++ loops rules (Value.postorderAll (n.itemsAt "body"))) (n.itemsAt "orelse") ∧
    loops rules n.beneath = loops rules (Value.postorderAll (n.itemsAt "body")) ++
      loops rules (Value.postorderAll (n.itemsAt "orelse")) := by
  obtain ⟨own, held⟩ := n
  obtain rfl : own = Core.forLoop := schema
  obtain ⟨target, held, rfl, ofTarget, typed⟩ := Slot.allTyped_cons typed.2
  obtain ⟨iter, held, rfl, ofIter, typed⟩ := Slot.allTyped_cons typed
  obtain ⟨body, held, rfl, ofBody, typed⟩ := Slot.allTyped_cons typed
  obtain ⟨orelse, held, rfl, ofOrelse, typed⟩ := Slot.allTyped_cons typed
  obtain ⟨comment, held, rfl, ofComment, typed⟩ := Slot.allTyped_cons typed
  cases Slot.allTyped_nil typed
  obtain ⟨keepsTarget, noTarget⟩ := slot_inert rules s (Slot.expression_inert ofTarget) before
  obtain ⟨keepsIter, noIter⟩ := slot_inert rules s (Slot.expression_inert ofIter) before
  have noComment : comment.postorder = [] := by
    cases comment with
    | value v =>
      obtain ⟨⟨-, accepted⟩, -⟩ := ofComment
      cases v with
      | str text => rfl
      | _ => cases accepted
    | _ => rfl
  have inBody := Slot.postorder_items rfl rfl ofBody
  have inOrelse := Slot.postorder_items rfl rfl ofOrelse
  have rebuilt : node rules s before (.mk Core.forLoop [target, iter, body, orelse, comment]) = .mk Core.forLoop
      [target, iter, slot rules s before body, slot rules s (before ++ loops rules body.postorder) orelse,
        slot rules s (before ++ loops rules body.postorder ++ loops rules orelse.postorder) comment] := by
    simp only [node, slots, keepsTarget, noTarget, keepsIter, noIter, List.append_nil]
  rw [rebuilt]
  refine ⟨rfl, rfl, slot_items body before, ?_, ?_⟩
  · rw [← show body.items = (Node.mk Core.forLoop [target, iter, body, orelse, comment]).itemsAt "body" from rfl,
      ← inBody]
    exact slot_items orelse _
  · change loops rules (target.postorder ++ (iter.postorder ++ (body.postorder ++ (orelse.postorder ++
      (comment.postorder ++ []))))) = loops rules (Value.postorderAll body.items) ++
        loops rules (Value.postorderAll orelse.items)
    simp only [loops_append, noTarget, noIter, noComment, inBody, inOrelse, List.append_nil, List.nil_append]

theorem node_alike (before : List Node) : n.Alike (node rules s before n) := by
  refine ⟨node_schema, fun name => ?_⟩
  obtain ⟨behind, same⟩ := node_nodeAt rules s before n name
  unfold Node.childSchema?
  rw [same]
  cases n.nodeAt? name with
  | none => rfl
  | some child => exact congrArg some node_schema

theorem lowered_unread {before : List Node} (unread : reading? rules (node rules s before n) = none) :
    lowered rules s before n = .ofNode (node rules s before n) := place_unread unread

theorem lowered_loop {target iter : Node} (typed : n.WellTyped coreRegistry) (schema : n.schema = Core.forLoop)
    (rule : Rule.forLoopName ∈ rules) (targeted : n.nodeAt? "target" = some target)
    (iterated : n.nodeAt? "iter" = some iter) (before : List Node) :
    lowered rules s before n = .ofNodes (Lowered.loop
      (loopNames s (before ++ (loops rules (Value.postorderAll (n.itemsAt "body")) ++
        loops rules (Value.postorderAll (n.itemsAt "orelse")))) n.hasElse)
      ⟨target, iter, items rules s before (n.itemsAt "body"),
        items rules s (before ++ loops rules (Value.postorderAll (n.itemsAt "body"))) (n.itemsAt "orelse")⟩) := by
  obtain ⟨sameTarget, sameIter, body, orelse, beneath⟩ := loop_rebuilt rules s typed schema before
  have kind : (node rules s before n).kind = "For" := node_kind.trans (loop_kind schema)
  have flagged : (node rules s before n).hasElse = n.hasElse := node_hasElse
  unfold Node.hasElse at flagged ⊢
  rw [lowered, place, reading_loop kind rule (sameTarget.trans targeted) (sameIter.trans iterated), beneath]
  dsimp only
  rw [flagged, body, orelse]

theorem lowered_kept (below : ∀ child ∈ n.children, child.Inert) (before : List Node) :
    lowered rules s before n = place rules s before n := by
  rw [lowered, node_kept n fun child inside => inert_unread rules (below child inside), loops_children below,
    List.append_nil]

end Reference

end TreeLowering
