import TreeLowering.Proofs.Survivors
import TreeLowering.Proofs.Overlooked
import TreeLowering.Proofs.TypeCheck
import Mathlib.Algebra.Order.Group.Multiset

namespace TreeLowering

variable {β : Type}

-- What a walk through a tree notes of the nodes that it is to take note of, in its order.
def Node.census (view : Node → Option β) (n : Node) : List β :=
  n.survey (fun _ m found => (found ++ (view m).toList, true)) 0 []

theorem Node.census_visited (view : Node → Option β) (n : Node) : n.census view = n.visited.filterMap view := by
  have gathered : ∀ (ns : List Node) found, ns.foldl (fun found m => found ++ (view m).toList) found =
      found ++ ns.filterMap view := by
    intro ns
    induction ns with
    | nil => exact fun found => (List.append_nil _).symm
    | cons m rest ih =>
      intro found
      rw [List.foldl_cons, ih, List.append_assoc]
      cases here : view m <;> simp [here]
  exact (Node.survey_fold _ n 0 []).trans (gathered n.visited [])

def tally (view : Node → Option β) (ns : List Node) : Multiset β := ns.filterMap view

section Tally

variable {view : Node → Option β} {n : Node}

@[simp] theorem tally_nil : tally view [] = 0 := rfl

@[simp] theorem tally_append (ns ms : List Node) : tally view (ns ++ ms) = tally view ns + tally view ms := by
  rw [tally, List.filterMap_append]
  rfl

theorem tally_skip {ns : List Node} (unseen : view n = none) : tally view (n :: ns) = tally view ns := by
  rw [tally, List.filterMap_cons, unseen]
  rfl

theorem tally_one (n : Node) : tally view [n] = ((view n).toList : Multiset β) := by
  rw [tally, List.filterMap_cons]
  cases view n <;> rfl

theorem tally_visited (schema : Schema) (slots : List Slot) : tally view (Node.mk schema slots).visited =
    tally view [.mk schema slots] + tally view (Slot.visitedAll slots) := tally_append [_] _

end Tally

section Visited

variable {n : Node} {ns : List Node} {items : List Value} {held : Slot} {rest : List Slot}

@[simp] theorem Slot.visitedAll_nil : Slot.visitedAll [] = [] := rfl

@[simp] theorem Slot.visitedAll_cons : Slot.visitedAll (held :: rest) = held.visited ++ Slot.visitedAll rest := rfl

@[simp] theorem Slot.visited_unset : Slot.unset.visited = [] := rfl

@[simp] theorem Slot.visited_one : (Slot.value (.node n)).visited = n.visited := rfl

@[simp] theorem Slot.visited_text {text : String} : (Slot.value (.str text)).visited = [] := rfl

@[simp] theorem Slot.visited_list : (Slot.value (.list items)).visited = Value.visitedAll items := rfl

@[simp] theorem Value.visitedAll_nil : Value.visitedAll [] = [] := rfl

@[simp] theorem Value.visitedAll_node : Value.visitedAll (.node n :: items) = n.visited ++ Value.visitedAll items := rfl

theorem Value.visitedAll_nodes (ns : List Node) : Value.visitedAll (ns.map .node) = ns.flatMap Node.visited := by
  induction ns with
  | nil => rfl
  | cons n rest ih => rw [List.map_cons, visitedAll_node, ih, List.flatMap_cons]

@[simp] theorem Slot.visited_nodes : (Slot.value (.ofNodes ns)).visited = ns.flatMap Node.visited :=
  Value.visitedAll_nodes ns

end Visited

-- The kinds of the nodes that the rules build.
def Core.emitted : List String := ["Assign", "Name", "Load", "Store", "Call", "Try", "ExceptHandler", "Break", "While",
  "NameConstant", "If", "BinOp", "UnaryOp", "Not", "Raise"]

-- A view that a rewriting does not disturb: it takes no note of what the rules consume and emit, nor of contexts,
-- and notes the same of a node around its rewritten children.
structure Steady (view : Node → Option β) : Prop where
  rebuilt {n : Node} (rules : List String) (s : NameSupply) (before : List Node) : n.WellTyped coreRegistry →
    view (Reference.node rules s before n) = view n
  consumed {n : Node} {rule : Rule} : Rule.for? n = some rule → view n = none
  emitted {n : Node} : n.kind ∈ Core.emitted → view n = none
  context {n : Node} : n.Is coreRegistry "expr_context" → view n = none

section Emitted

variable {view : Node → Option β} (steady : Steady view)

include steady

theorem tally_emitted {schema : Schema} {slots : List Slot} (emitted : schema.kind ∈ Core.emitted) :
    tally view (Node.mk schema slots).visited = tally view (Slot.visitedAll slots) :=
  tally_skip (steady.emitted emitted)

theorem tally_leaf {schema : Schema} (emitted : schema.kind ∈ Core.emitted) (bare : schema.fields = []) :
    tally view (Node.empty schema).visited = 0 := by
  rw [Node.empty, tally_emitted steady emitted, bare]
  rfl

namespace Lowered

variable {id func exception : String} {target value test op left right : Node} {args caught handled : List Node}
  {body orelse : List Value} {names : Rule.LoopNames} {parts : Rule.Loop}

theorem load_tally : tally view (load id).visited = 0 := by
  have context : tally view (Node.empty Core.load).visited = 0 := tally_leaf steady (by decide) rfl
  rw [load, tally_emitted steady (by decide)]
  simpa using context

theorem store_tally : tally view (store id).visited = 0 := by
  have context : tally view (Node.empty Core.store).visited = 0 := tally_leaf steady (by decide) rfl
  rw [store, tally_emitted steady (by decide)]
  simpa using context

theorem truth_tally {b : Bool} : tally view (truth b).visited = 0 := by
  rw [truth, tally_emitted steady (by decide)]
  rfl

theorem assign_tally : tally view (assign target value).visited =
    tally view target.visited + tally view value.visited := by
  rw [assign, tally_emitted steady (by decide)]
  simp

theorem call_tally : tally view (call func args).visited = tally view (args.flatMap Node.visited) := by
  rw [call, tally_emitted steady (by decide)]
  simp [load_tally steady]

theorem whileTrue_tally : tally view (whileTrue body).visited = tally view (Value.visitedAll body) := by
  rw [whileTrue, tally_emitted steady (by decide)]
  simp [truth_tally steady]

theorem ifThen_tally : tally view (ifThen test body orelse).visited =
    tally view test.visited + tally view (Value.visitedAll body) + tally view (Value.visitedAll orelse) := by
  rw [ifThen, tally_emitted steady (by decide)]
  simp [add_assoc]

theorem tryExcept_tally : tally view (tryExcept caught exception handled).visited =
    tally view (caught.flatMap Node.visited) + tally view (handled.flatMap Node.visited) := by
  have handles : tally view (handler exception handled).visited = tally view (handled.flatMap Node.visited) := by
    rw [handler, tally_emitted steady (by decide)]
    simp [load_tally steady]
  rw [tryExcept, tally_emitted steady (by decide)]
  simp [handles]

theorem binOp_tally : tally view (binOp left op right).visited =
    tally view left.visited + tally view op.visited + tally view right.visited := by
  rw [binOp, tally_emitted steady (by decide)]
  simp [add_assoc]

theorem negation_tally : tally view (negation test).visited = tally view test.visited := by
  have operator : tally view (Node.empty Core.negation).visited = 0 := tally_leaf steady (by decide) rfl
  rw [negation, tally_emitted steady (by decide)]
  simp [operator]

theorem raise_tally : tally view (raise value).visited = tally view value.visited := by
  rw [raise, tally_emitted steady (by decide)]
  simp

theorem flag_tally (b : Bool) : tally view ((flag names b).flatMap Node.visited) = 0 := by
  unfold flag
  cases names.exhausted with
  | none => rfl
  | some flag => simp [assign_tally steady, store_tally steady, truth_tally steady]

theorem advance_tally : tally view (advance names).visited = 0 := by
  have leave : tally view (Node.empty Core.leave).visited = 0 := tally_leaf steady (by decide) rfl
  rw [advance, tryExcept_tally steady]
  simp [assign_tally steady, store_tally steady, call_tally steady, load_tally steady, flag_tally steady, leave]

theorem loop_tally (flagged : names.exhausted = none → parts.orelse = []) :
    tally view (Replacement.ofNodes (loop names parts)).visited = tally view parts.target.visited +
      tally view parts.iter.visited + tally view (Value.visitedAll parts.body) +
      tally view (Value.visitedAll parts.orelse) := by
  have turning : tally view (Value.visitedAll (turn names parts)) =
      tally view parts.target.visited + tally view (Value.visitedAll parts.body) := by
    simp [turn, advance_tally steady, assign_tally steady, load_tally steady]
  have last : tally view ((names.exhausted.map fun flag => ifThen (load flag) parts.orelse []).toList.flatMap
      Node.visited) = tally view (Value.visitedAll parts.orelse) := by
    cases drawn : names.exhausted with
    | none =>
      rw [flagged drawn]
      rfl
    | some flag => simp [ifThen_tally steady, load_tally steady]
  rw [Replacement.visited, Replacement.ofNodes, Replacement.elements, Value.visitedAll_nodes, loop,
    List.flatMap_append, List.flatMap_append, tally_append, tally_append, flag_tally steady, last]
  simp only [List.flatMap_cons, List.flatMap_nil, List.append_nil, tally_append, zero_add, assign_tally steady,
    store_tally steady, call_tally steady, whileTrue_tally steady, turning]
  ac_rfl

theorem spelledOut_tally : tally view (spelledOut id op value).visited =
    tally view op.visited + tally view value.visited := by
  rw [spelledOut, assign_tally steady, binOp_tally steady, store_tally steady, load_tally steady, zero_add, zero_add]

theorem raiseUnless_tally {msg : Option Node} : tally view (raiseUnless test msg).visited =
    tally view test.visited + tally view (msg.toList.flatMap Node.visited) := by
  rw [raiseUnless, ifThen_tally steady, negation_tally steady]
  simp [raise_tally steady, call_tally steady]

end Lowered

end Emitted

theorem Slot.visited_primitive {f : Field} {held : Slot} (plain : f.Plain) (typed : held.Typed coreRegistry f)
    (primitive : ∀ n, f.type.accepts (.node n) = false) : held.visited = [] := by
  rw [Slot.visited_children, List.flatMap_eq_nil_iff]
  intro child inside
  have accepted := Slot.child_accepted plain typed inside
  rw [primitive] at accepted
  cases accepted

theorem Slot.visited_items {f : Field} {held : Slot} (type : f.type = .kind "stmt")
    (repeated : f.cardinality.isSequence = true) (typed : held.Typed coreRegistry f) :
    held.visited = Value.visitedAll held.items := by
  rcases Slot.statements_cases type repeated typed with rfl | ⟨items, rfl | rfl, -⟩ <;> rfl

section Consumed

variable {view : Node → Option β} (steady : Steady view) {n target iter op value test : Node}

include steady

theorem tally_forLoop (typed : n.WellTyped coreRegistry) (schema : n.schema = Core.forLoop)
    (targeted : n.nodeAt? "target" = some target) (iterated : n.nodeAt? "iter" = some iter) :
    tally view n.visited = tally view target.visited + tally view iter.visited +
      tally view (Value.visitedAll (n.itemsAt "body")) + tally view (Value.visitedAll (n.itemsAt "orelse")) := by
  have chosen : Rule.for? n = some .forLoop := by simp [Rule.for?, Reference.loop_kind schema]
  have unseen := steady.consumed chosen
  obtain ⟨own, held⟩ := n
  obtain rfl : own = Core.forLoop := schema
  obtain ⟨first, held, rfl, -, typed⟩ := Slot.allTyped_cons typed.2
  obtain ⟨second, held, rfl, -, typed⟩ := Slot.allTyped_cons typed
  obtain ⟨body, held, rfl, ofBody, typed⟩ := Slot.allTyped_cons typed
  obtain ⟨orelse, held, rfl, ofOrelse, typed⟩ := Slot.allTyped_cons typed
  obtain ⟨comment, held, rfl, ofComment, typed⟩ := Slot.allTyped_cons typed
  cases Slot.allTyped_nil typed
  have inTarget : first.visited = target.visited := Node.visitedAt_node targeted
  have inIter : second.visited = iter.visited := Node.visitedAt_node iterated
  have inBody := Slot.visited_items rfl rfl ofBody
  have inOrelse := Slot.visited_items rfl rfl ofOrelse
  have inComment := Slot.visited_primitive ⟨fun _ no => (by cases no), fun no => (by cases no)⟩ ofComment fun _ => rfl
  rw [Node.visited, tally_skip unseen]
  change _ = _ + tally view (Value.visitedAll body.items) + tally view (Value.visitedAll orelse.items)
  simp [inTarget, inIter, inBody, inOrelse, inComment, add_assoc]

theorem tally_name (typed : n.WellTyped coreRegistry) (kind : n.kind = "Name") : tally view n.visited = 0 := by
  have schema := (core_kind (s := Core.name) (by simp [Core.schemas]) typed).mp kind
  have unseen := steady.emitted (n := n) (by rw [kind]; decide)
  obtain ⟨own, held⟩ := n
  obtain rfl : own = Core.name := schema
  obtain ⟨id, held, rfl, ofId, typed⟩ := Slot.allTyped_cons typed.2
  obtain ⟨context, held, rfl, ofContext, typed⟩ := Slot.allTyped_cons typed
  cases Slot.allTyped_nil typed
  have inId := Slot.visited_primitive ⟨fun _ no => (by cases no), fun no => (by cases no)⟩ ofId fun _ => rfl
  have inContext : tally view context.visited = 0 := by
    rcases Slot.one_cases ofContext with rfl | ⟨c, rfl, isContext⟩
    · rfl
    · have unnoted := steady.context isContext
      obtain ⟨schema, rfl⟩ := context_alone isContext
      exact tally_skip unnoted
  rw [Node.visited, tally_skip unseen]
  simp [inId, inContext]

theorem tally_augmented (typed : n.WellTyped coreRegistry) (schema : n.schema = Core.augAssign)
    (targeted : n.nodeAt? "target" = some target) (isName : target.kind = "Name")
    (operated : n.nodeAt? "op" = some op) (valued : n.nodeAt? "value" = some value) :
    tally view n.visited = tally view op.visited + tally view value.visited := by
  have kind : n.kind = "AugAssign" := congrArg Schema.kind schema
  have chosen : Rule.for? n = some .augAssign := by simp [Rule.for?, kind, targeted, isName]
  have unseen := steady.consumed chosen
  have named := tally_name steady (Node.child_typed typed (Node.nodeAt_child targeted)) isName
  obtain ⟨own, held⟩ := n
  obtain rfl : own = Core.augAssign := schema
  obtain ⟨first, held, rfl, -, typed⟩ := Slot.allTyped_cons typed.2
  obtain ⟨second, held, rfl, -, typed⟩ := Slot.allTyped_cons typed
  obtain ⟨third, held, rfl, -, typed⟩ := Slot.allTyped_cons typed
  cases Slot.allTyped_nil typed
  have inTarget : first.visited = target.visited := Node.visitedAt_node targeted
  have inOp : second.visited = op.visited := Node.visitedAt_node operated
  have inValue : third.visited = value.visited := Node.visitedAt_node valued
  rw [Node.visited, tally_skip unseen]
  simp [inTarget, inOp, inValue, named]

theorem tally_assertion (typed : n.WellTyped coreRegistry) (schema : n.schema = Core.assertion)
    (tested : n.nodeAt? "test" = some test) : tally view n.visited =
      tally view test.visited + tally view ((n.nodeAt? "msg").toList.flatMap Node.visited) := by
  have kind : n.kind = "Assert" := congrArg Schema.kind schema
  have chosen : Rule.for? n = some .assertion := by simp [Rule.for?, kind]
  have unseen := steady.consumed chosen
  obtain ⟨own, held⟩ := n
  obtain rfl : own = Core.assertion := schema
  obtain ⟨first, held, rfl, -, typed⟩ := Slot.allTyped_cons typed.2
  obtain ⟨msg, held, rfl, ofMsg, typed⟩ := Slot.allTyped_cons typed
  cases Slot.allTyped_nil typed
  have inTest : first.visited = test.visited := Node.visitedAt_node tested
  have inMsg : msg.visited =
      ((Node.mk Core.assertion [first, msg]).nodeAt? "msg").toList.flatMap Node.visited := by
    change msg.visited = (msg.node?).toList.flatMap Node.visited
    rcases Slot.maybe_cases ofMsg with rfl | rfl | ⟨m, rfl, -⟩
    · rfl
    · rfl
    · exact (List.append_nil _).symm
  rw [Node.visited, tally_skip unseen, ← inMsg]
  simp [inTest]

end Consumed

namespace Reference

variable {view : Node → Option β} {rules : List String} {s : NameSupply} {n : Node}

theorem items_tally {vs : List Value} (same : ∀ c, .node c ∈ vs → ∀ before,
    tally view (lowered rules s before c).visited = tally view c.visited) (before : List Node) :
    tally view (Value.visitedAll (items rules s before vs)) = tally view (Value.visitedAll vs) := by
  induction vs generalizing before with
  | nil => rfl
  | cons v rest ih =>
    have others := ih fun c member => same c (List.mem_cons_of_mem _ member)
    rw [items, Value.visitedAll_append, tally_append, others]
    cases v with
    | node c =>
      rw [Value.visitedAll_node, tally_append]
      exact congrArg (· + _) (same c (List.mem_cons_self ..) before)
    | _ => exact zero_add _

theorem slot_tally {schema : Schema} {f : Field} {held : Slot} (member : schema ∈ coreRegistry.schemas)
    (field : f ∈ schema.fields) (typed : held.Typed coreRegistry f) (same : ∀ c ∈ held.children, ∀ before,
      tally view (lowered rules s before c).visited = tally view c.visited) (before : List Node) :
    tally view (slot rules s before held).visited = tally view held.visited := by
  cases held with
  | value v =>
    obtain ⟨fits, inner⟩ := typed
    have elements : ∀ vs, v.items? = some vs →
        tally view (Value.visitedAll (items rules s before vs)) = tally view (Value.visitedAll vs) := fun vs found =>
      items_tally (fun c inside => same c (Value.mem_children.mpr (.inr ⟨vs, found, inside⟩))) before
    cases v with
    | node c =>
      have other := Desugarer.unreplaced_field member field inner fits
      have kept := same c (List.mem_singleton_self _) before
      rwa [lowered, place_unread (reading_other (by rwa [node_kind])), Replacement.visited_ofNode] at kept
    | list vs => exact elements vs rfl
    | tuple vs => exact elements vs rfl
    | _ => rfl
  | _ => rfl

theorem slots_tally {ss : List Slot} (same : ∀ held ∈ ss, ∀ before,
    tally view (slot rules s before held).visited = tally view held.visited) (before : List Node) :
    tally view (Slot.visitedAll (slots rules s before ss)) = tally view (Slot.visitedAll ss) := by
  induction ss generalizing before with
  | nil => rfl
  | cons held rest ih =>
    rw [List.forall_mem_cons] at same
    rw [slots, Slot.visitedAll_cons, Slot.visitedAll_cons, tally_append, tally_append, same.1, ih same.2]

theorem node_tally (steady : Steady view) (typed : n.WellTyped coreRegistry)
    (same : ∀ c ∈ n.children, ∀ before, tally view (lowered rules s before c).visited = tally view c.visited)
    (before : List Node) : tally view (node rules s before n).visited = tally view n.visited := by
  have own := steady.rebuilt rules s before typed
  have kept : ∀ held ∈ n.slots, ∀ behind,
      tally view (slot rules s behind held).visited = tally view held.visited := by
    intro held member behind
    obtain ⟨index, place⟩ := List.getElem?_of_mem member
    have bound : index < n.schema.fields.length := typed.sized ▸ (List.getElem?_eq_some_iff.mp place).1
    have field := List.getElem?_eq_getElem bound
    exact slot_tally typed.member (List.mem_of_getElem? field)
      ((Node.wellTyped_index.mp typed).2.2 index _ held field place)
      (fun c inside => same c (Node.mem_children.mpr ⟨held, member, inside⟩)) behind
  have below := slots_tally kept before
  obtain ⟨schema, held⟩ := n
  rw [node, tally_visited, tally_visited, tally_one, tally_one]
  exact congrArg₂ (fun own below => (own.toList : Multiset β) + below) own below

-- What a walk notes of a tree it notes of what comes in the place of the tree. The induction goes down the tree:
-- each part of a consumed node is emitted once, and what is left alone is met around its rewritten children.
theorem lowered_tally (steady : Steady view) (n : Node) : n.WellTyped coreRegistry → ∀ before,
    tally view (lowered rules s before n).visited = tally view n.visited := by
  induction n using Node.children_induct with
  | step n ih =>
    intro typed before
    have same : ∀ c ∈ n.children, ∀ before,
        tally view (lowered rules s before c).visited = tally view c.visited :=
      fun c inside => ih c inside (Node.child_typed typed inside)
    cases read : reading? rules n with
    | none =>
      rw [lowered_left read, Replacement.visited_ofNode]
      exact node_tally steady typed same before
    | some reading =>
      rcases reading_cases read with
        ⟨kind, rule, target, iter, targeted, iterated, -⟩ |
        ⟨kind, rule, target, id, op, value, targeted, isName, named, operated, valued, -⟩ |
        ⟨kind, rule, test, tested, -⟩
      · have schema := (core_kind (s := Core.forLoop) (by simp [Core.schemas]) typed).mp kind
        have inside : ∀ name c, .node c ∈ n.itemsAt name → c ∈ n.children := fun name c => Node.itemsAt_child
        rw [lowered_loop typed schema rule targeted iterated, Lowered.loop_tally steady,
          items_tally fun c member => same c (inside "body" c member),
          items_tally fun c member => same c (inside "orelse" c member),
          tally_forLoop steady typed schema targeted iterated]
        intro undrawn
        have elseless : n.hasElse = false := by simpa [loopNames] using undrawn
        exact items_nil.mpr (by simpa [Node.hasElse] using elseless)
      · have schema := (core_kind (s := Core.augAssign) (by simp [Core.schemas]) typed).mp kind
        have below := Node.expressions_inert typed (by rw [schema]; decide)
        rw [lowered_kept below, place, reading_augmented kind rule targeted isName named operated valued]
        dsimp only
        rw [Replacement.visited_ofNode, Lowered.spelledOut_tally steady,
          tally_augmented steady typed schema targeted isName operated valued]
      · have schema := (core_kind (s := Core.assertion) (by simp [Core.schemas]) typed).mp kind
        have below := Node.expressions_inert typed (by rw [schema]; decide)
        rw [lowered_kept below, place, reading_asserted kind rule tested]
        dsimp only
        rw [Replacement.visited_ofNode, Lowered.raiseUnless_tally steady, tally_assertion steady typed schema tested]

end Reference

-- A slot without the nodes in it. The other elements of a sequence stay.
def Slot.outline : Slot → Slot
  | .value (.node _) => .unset
  | .value (.list items) => .value (.list (items.filter fun v => v.node?.isNone))
  | .value (.tuple items) => .value (.tuple (items.filter fun v => v.node?.isNone))
  | held => held

-- A node with the primitive values of its fields.
def Node.outline (n : Node) : Node := .mk n.schema (n.slots.map Slot.outline)

namespace Reference

variable {rules : List String} {s : NameSupply} {n : Node}

theorem element_nodes (before : List Node) (c : Node) :
    (element rules s before (.node c)).filter (fun v => v.node?.isNone) = [] := by
  have nodes : ∀ m, (place rules s (before ++ loops rules c.beneath) m).elements.filter
      (fun v => v.node?.isNone) = [] := by
    intro m
    unfold place
    split
    · simp [Replacement.ofNodes, Replacement.elements, Value.node?]
    all_goals rfl
  exact nodes _

theorem items_outline (before : List Node) (vs : List Value) :
    (items rules s before vs).filter (fun v => v.node?.isNone) = vs.filter fun v => v.node?.isNone := by
  induction vs generalizing before with
  | nil => rfl
  | cons v rest ih =>
    rw [items, List.filter_append, ih]
    cases v with
    | node c => rw [element_nodes]; rfl
    | _ => rfl

theorem slot_outline (before : List Node) (held : Slot) : (slot rules s before held).outline = held.outline := by
  cases held with
  | value v =>
    cases v with
    | list vs => exact congrArg (fun vs => Slot.value (.list vs)) (items_outline before vs)
    | tuple vs => exact congrArg (fun vs => Slot.value (.tuple vs)) (items_outline before vs)
    | _ => rfl
  | _ => rfl

theorem node_outline (before : List Node) : (node rules s before n).outline = n.outline := by
  have fields : ∀ ss, (slots rules s before ss).map Slot.outline = ss.map Slot.outline := by
    intro ss
    induction ss generalizing before with
    | nil => rfl
    | cons held rest ih => rw [slots, List.map_cons, List.map_cons, slot_outline, ih]
  rw [node_slots]
  exact congrArg (Node.mk n.schema) (fields n.slots)

end Reference

def ofKind (kind : String) (n : Node) : Option Node := if n.kind = kind then some n.outline else none

-- The augmented assignments to other targets than names, as they are.
def otherTargets (n : Node) : Option Node :=
  if n.kind = "AugAssign" ∧ ∀ target ∈ n.nodeAt? "target", target.kind ≠ "Name" then some n else none

theorem ofKind_steady {kind : String} (kept : kind ∉ Core.replaced) (other : kind ∉ Core.emitted)
    (apart : ∀ s ∈ coreRegistry.schemas, s.kind = kind → s.isSubkindOf "expr_context" = false) :
    Steady (ofKind kind) where
  rebuilt rules s before _ := by rw [ofKind, ofKind, Reference.node_kind, Reference.node_outline]
  consumed chosen := by
    refine if_neg fun same => ?_
    exact kept (same ▸ replaced_chosen chosen)
  emitted member := by
    refine if_neg fun same => ?_
    exact other (same ▸ member)
  context isContext := by
    refine if_neg fun same => ?_
    exact Bool.false_ne_true ((apart _ isContext.2.member same).symm.trans isContext.1)

theorem otherTargets_none {n : Node} (other : n.kind ≠ "AugAssign") : otherTargets n = none :=
  if_neg fun both => other both.1

theorem otherTargets_steady : Steady otherTargets where
  rebuilt {n} rules s before typed := by
    by_cases kind : n.kind = "AugAssign"
    · have schema := (core_kind (s := Core.augAssign) (by simp [Core.schemas]) typed).mp kind
      have below := Node.expressions_inert typed (by rw [schema]; decide)
      rw [Reference.node_kept n fun child inside => Reference.inert_unread rules (below child inside)]
    · rw [otherTargets_none kind, otherTargets_none (by rwa [Reference.node_kind])]
  consumed chosen := by
    rcases Rule.for_cases chosen with ⟨-, kind⟩ | ⟨-, kind⟩ | ⟨-, -, target, targeted, isName⟩
    · exact otherTargets_none (by rw [kind]; decide)
    · exact otherTargets_none (by rw [kind]; decide)
    · exact if_neg fun both => both.2 target targeted isName
  emitted member := by
    refine otherTargets_none fun kind => ?_
    rw [kind] at member
    exact absurd member (by decide)
  context isContext := by
    refine otherTargets_none fun kind => ?_
    have schema := (core_kind (s := Core.augAssign) (by simp [Core.schemas]) isContext.2).mp kind
    have isOne := isContext.1
    rw [Node.isA, schema] at isOne
    exact absurd isOne (by decide)

namespace Desugarer

theorem steady_census {d : Desugarer} (builtin : d.Builtin) (indexed : d.Indexed) (registry : d.registry = coreRegistry)
    {view : Node → Option β} (steady : Steady view) {root t : Node} {s rest : NameSupply}
    (typed : root.WellTyped coreRegistry) (ran : (d.rewrite root).run s = (.ok t, rest)) :
    (t.census view).Perm (root.census view) := by
  have follows := Reference.rewrite_follows builtin registry indexed typed s
  rw [ran] at follows
  have same : tally view (Reference.lowered d.ruleNames s [] root).visited = tally view root.visited :=
    Reference.lowered_tally steady root typed []
  rw [follows.1, Replacement.visited_ofNode] at same
  rw [Node.census_visited, Node.census_visited]
  exact Multiset.coe_eq_coe.mp same

-- Rewriting with the built-in rules loses and doubles nothing of what they neither consume nor emit.
theorem rewrite_census {root t : Node} {s rest : NameSupply} (typed : root.WellTyped coreRegistry)
    (ran : ((standard coreRegistry).rewrite root).run s = (.ok t, rest)) :
    (∀ kind, kind ∉ Core.replaced → kind ∉ Core.emitted →
      (∀ s ∈ coreRegistry.schemas, s.kind = kind → s.isSubkindOf "expr_context" = false) →
      (t.census (ofKind kind)).Perm (root.census (ofKind kind))) ∧
    (t.census otherTargets).Perm (root.census otherTargets) := by
  have census : ∀ {view : Node → Option Node}, Steady view → (t.census view).Perm (root.census view) :=
    fun steady => steady_census (standard_builtin coreRegistry) (standard_indexed coreRegistry)
      (standard_registry coreRegistry) steady typed ran
  exact ⟨fun kind kept other apart => census (ofKind_steady kept other apart), census otherTargets_steady⟩

def declaration (names : List String) : Node :=
  .mk (Core.statement "Global" [⟨"names", .identifier, .oneOrMore⟩]) [.value (.tuple (names.map .str))]

def increment : Node :=
  .mk Core.augAssign [.value (.node (.mk (Core.expression "Attribute" [Core.one "value" "expr",
    ⟨"attr", .identifier, .required⟩, Core.one "ctx" "expr_context"]) [.value (.node (Lowered.load "counter")),
    .value (.str "total"), .value (.node (.empty Core.store))])),
    .value (.node (.empty (Core.member "operator" "Add" []))), .value (.node (Lowered.load "item"))]

def countingLoop : Node :=
  Lowered.whileTrue [.node (.mk Core.forLoop [.value (.node (Lowered.store "item")),
    .value (.node (Lowered.load "items")), .value (.ofNodes [declaration ["counter", "seen"], increment]),
    .value (.ofNodes [declaration ["counter"]]), .unset])]

theorem countingLoop_typed : countingLoop.WellTyped coreRegistry := core_typed (by decide +kernel)

theorem countingLoop_census : ∃ t rest, ((standard coreRegistry).rewrite countingLoop).run ⟨[]⟩ = (.ok t, rest) ∧
    (t.census (ofKind "Global")).Perm [declaration ["counter", "seen"], declaration ["counter"]] ∧
    (t.census otherTargets).Perm [increment] := by
  obtain ⟨t, rest, ran⟩ := rewrite_succeeds (standard_builtin coreRegistry) (standard_registry coreRegistry)
    countingLoop_typed (by decide) (by decide) ⟨[]⟩
  obtain ⟨kinds, others⟩ := rewrite_census countingLoop_typed ran
  exact ⟨t, rest, ran, kinds "Global" (by decide) (by decide) (by decide +kernel), others⟩

end Desugarer

end TreeLowering
