import TreeLowering.Proofs.BottomUp
import TreeLowering.Proofs.Reference

namespace TreeLowering

def Replacement.visited (r : Replacement) : List Node := Value.visitedAll r.elements

def Node.visitedAt (n : Node) (name : String) : List Node := ((n.slot? name).map Slot.visited).getD []

section Visits

variable {n child x : Node} {name : String}

theorem Value.visitedAll_append (vs ws : List Value) :
    Value.visitedAll (vs ++ ws) = Value.visitedAll vs ++ Value.visitedAll ws := by
  simp only [Value.visitedAll_children, List.filterMap_append, List.flatMap_append]

theorem Replacement.visited_ofNode (n : Node) : (Replacement.ofNode n).visited = n.visited := List.append_nil _

theorem Slot.visitedAll_mem {held : Slot} {ss : List Slot} (member : held ∈ ss) (met : x ∈ held.visited) :
    x ∈ Slot.visitedAll ss := by
  induction ss with
  | nil => cases member
  | cons s rest ih =>
    rw [Slot.visitedAll, List.mem_append]
    rcases List.mem_cons.mp member with rfl | later
    · exact .inl met
    · exact .inr (ih later)

theorem Node.visitedAt_node (found : n.nodeAt? name = some child) : n.visitedAt name = child.visited := by
  obtain ⟨held, slot, isNode⟩ := Option.bind_eq_some_iff.mp found
  rw [visitedAt, slot]
  cases held with
  | value v =>
    cases v with
    | node c =>
      cases isNode
      rfl
    | _ => cases isNode
  | _ => cases isNode

theorem Node.visitedAt_items (none : n.nodeAt? name = none) :
    n.visitedAt name = Value.visitedAll (n.itemsAt name) := by
  unfold nodeAt? at none
  unfold visitedAt itemsAt get?
  cases slot : n.slot? name with
  | none => rfl
  | some held =>
    rw [slot] at none
    cases held with
    | value v =>
      cases v with
      | node c => cases none
      | _ => rfl
    | _ => rfl

end Visits

namespace Reference

variable (rules : List String) (s : NameSupply) {n child : Node} {schema : Schema} {f : Field} {held : Slot}

theorem items_visited {vs : List Value} (inside : .node child ∈ vs) (before : List Node) :
    ∃ behind, (lowered rules s behind child).visited ⊆ Value.visitedAll (items rules s before vs) := by
  induction vs generalizing before with
  | nil => cases inside
  | cons v rest ih =>
    rw [items, Value.visitedAll_append]
    rcases List.mem_cons.mp inside with rfl | later
    · exact ⟨before, List.subset_append_left ..⟩
    · obtain ⟨behind, part⟩ := ih later (before ++ loops rules v.postorderElement)
      exact ⟨behind, List.subset_append_of_subset_right _ part⟩

theorem slot_visited (member : schema ∈ coreRegistry.schemas) (field : f ∈ schema.fields)
    (typed : held.Typed coreRegistry f) (inside : child ∈ held.children) (before : List Node) :
    ∃ behind, (lowered rules s behind child).visited ⊆ (slot rules s before held).visited := by
  cases held with
  | value v =>
    obtain ⟨fits, inner⟩ := typed
    rcases Value.mem_children.mp inside with rfl | ⟨vs, found, element⟩
    · have other := Desugarer.unreplaced_field member field inner fits
      refine ⟨before, ?_⟩
      rw [lowered, place_unread (reading_other (by rwa [node_kind])), Replacement.visited_ofNode]
      exact List.Subset.refl _
    · obtain ⟨behind, part⟩ := items_visited rules s element before
      refine ⟨behind, ?_⟩
      cases v <;> cases found <;> exact part
  | _ => cases inside

theorem visitedAt_child (typed : n.WellTyped coreRegistry) (distinct : (n.schema.fields.map Field.name).Nodup)
    (inside : child ∈ n.children) (before : List Node) : ∃ f ∈ n.schema.fields, ∃ held behind,
      n.slot? f.name = some held ∧ held.Typed coreRegistry f ∧ child ∈ held.children ∧
        (lowered rules s behind child).visited ⊆ (node rules s before n).visitedAt f.name := by
  obtain ⟨f, field, held, found, ofSlot, inside⟩ := Node.child_field typed distinct inside
  obtain ⟨there, same⟩ := node_slot rules s before n f.name
  obtain ⟨behind, part⟩ := slot_visited rules s typed.member field ofSlot inside there
  refine ⟨f, field, held, behind, found, ofSlot, inside, ?_⟩
  rw [found] at same
  rw [Node.visitedAt, same]
  exact part

theorem visited_child (typed : n.WellTyped coreRegistry) (inside : child ∈ n.children) (before : List Node) :
    ∃ behind, (lowered rules s behind child).visited ⊆ (node rules s before n).visited := by
  obtain ⟨index, f, held, field, place, ofSlot, inside⟩ := Node.child_slot typed inside
  obtain ⟨behind, part⟩ := slot_visited rules s typed.member (List.mem_of_getElem? field) ofSlot inside
    (before ++ loops rules (Slot.postorderAll (n.slots.take index)))
  have placed : (slots rules s before n.slots)[index]? =
      some (slot rules s (before ++ loops rules (Slot.postorderAll (n.slots.take index))) held) := by
    rw [slots_index, place]
    rfl
  refine ⟨behind, fun x met => ?_⟩
  rw [node_slots, Node.visited]
  exact List.mem_cons_of_mem _ (Slot.visitedAll_mem (List.mem_of_getElem? placed) (part met))

end Reference

section Emitted

variable {x child test op value target : Node} {msg : Option Node} {id : String} {names : Rule.LoopNames}
  {parts : Rule.Loop} {body orelse : List Value} {nodes : List Node}

theorem Value.mem_visitedAll {vs : List Value} :
    x ∈ Value.visitedAll vs ↔ ∃ c, .node c ∈ vs ∧ x ∈ c.visited := by
  rw [Value.visitedAll_children, List.mem_flatMap]
  refine exists_congr fun c => and_congr_left' ?_
  rw [List.mem_filterMap]
  constructor
  · rintro ⟨v, member, isNode⟩
    cases v <;> cases isNode
    exact member
  · exact fun member => ⟨_, member, rfl⟩

theorem Replacement.visited_ofNodes : x ∈ (Replacement.ofNodes nodes).visited ↔ ∃ n ∈ nodes, x ∈ n.visited := by
  rw [Replacement.visited, Replacement.ofNodes, Replacement.elements, Value.mem_visitedAll]
  simp

theorem Node.visited_nodeAt {n : Node} (name : String) (found : n.nodeAt? name = some child)
    (met : x ∈ child.visited) : x ∈ n.visited := mem_visited.mpr (.inr ⟨child, nodeAt_child found, met⟩)

theorem Node.visited_itemsAt {n : Node} (name : String) (member : .node child ∈ n.itemsAt name)
    (met : x ∈ child.visited) : x ∈ n.visited := mem_visited.mpr (.inr ⟨child, itemsAt_child member, met⟩)

-- A loop is emitted with all of its parts, if there is a flag for its `else` part.
theorem loop_visited (flagged : names.exhausted = none → parts.orelse = [])
    (met : x ∈ parts.target.visited ∨ x ∈ parts.iter.visited ∨ x ∈ Value.visitedAll parts.body ∨
      x ∈ Value.visitedAll parts.orelse) :
    x ∈ (Replacement.ofNodes (Lowered.loop names parts)).visited := by
  have turning : ∀ c, .node c ∈ Lowered.turn names parts → x ∈ c.visited →
      x ∈ (Replacement.ofNodes (Lowered.loop names parts)).visited := by
    intro c member below
    exact Replacement.visited_ofNodes.mpr ⟨Lowered.whileTrue (Lowered.turn names parts), by simp [Lowered.loop],
      Node.visited_itemsAt "body" member below⟩
  rcases met with target | iter | body | orelse
  · refine turning (Lowered.assign parts.target (Lowered.load names.item)) (by simp [Lowered.turn]) ?_
    exact Node.visited_itemsAt "targets" (List.mem_singleton_self _) target
  · refine Replacement.visited_ofNodes.mpr
      ⟨Lowered.assign (Lowered.store names.iterator) (Lowered.call "iter" [parts.iter]), by simp [Lowered.loop], ?_⟩
    refine Node.visited_nodeAt "value" rfl ?_
    exact Node.visited_itemsAt "args" (List.mem_singleton_self _) iter
  · obtain ⟨c, member, below⟩ := Value.mem_visitedAll.mp body
    exact turning c (List.mem_cons_of_mem _ (List.mem_cons_of_mem _ member)) below
  · obtain ⟨c, member, below⟩ := Value.mem_visitedAll.mp orelse
    cases drawn : names.exhausted with
    | none =>
      rw [flagged drawn] at member
      cases member
    | some flag =>
      exact Replacement.visited_ofNodes.mpr ⟨Lowered.ifThen (Lowered.load flag) parts.orelse [], by
        simp [Lowered.loop, drawn], Node.visited_itemsAt "body" member below⟩

theorem spelledOut_visited (met : x ∈ op.visited ∨ x ∈ value.visited) :
    x ∈ (Replacement.ofNode (Lowered.spelledOut id op value)).visited := by
  rw [Replacement.visited_ofNode]
  refine Node.visited_nodeAt "value" rfl ?_
  rcases met with below | below
  · exact Node.visited_nodeAt "op" rfl below
  · exact Node.visited_nodeAt "right" rfl below

theorem raiseUnless_visited (met : x ∈ test.visited ∨ ∃ m, msg = some m ∧ x ∈ m.visited) :
    x ∈ (Replacement.ofNode (Lowered.raiseUnless test msg)).visited := by
  rw [Replacement.visited_ofNode]
  rcases met with below | ⟨m, rfl, below⟩
  · refine Node.visited_nodeAt "test" rfl ?_
    exact Node.visited_nodeAt "operand" rfl below
  · refine Node.visited_itemsAt "body" (List.mem_singleton_self _) ?_
    refine Node.visited_nodeAt "exc" rfl ?_
    exact Node.visited_itemsAt "args" (List.mem_singleton_self _) below

end Emitted

section Replaced

variable {rules : List String} {s : NameSupply} {before : List Node} {n child : Node}

theorem node_original {x : Node} {name : String} (found : (Reference.node rules s before n).nodeAt? name = some x) :
    ∃ behind y, n.nodeAt? name = some y ∧ Reference.node rules s behind y = x := by
  obtain ⟨behind, same⟩ := Reference.node_nodeAt rules s before n name
  rw [same] at found
  obtain ⟨y, original, rebuilt⟩ := Option.map_eq_some_iff.mp found
  exact ⟨behind, y, original, rebuilt⟩

theorem statements_rebuilt {f : Field} {held : Slot} (type : f.type = .kind "stmt")
    (repeated : f.cardinality.isSequence = true) (found : n.slot? f.name = some held)
    (ofSlot : held.Typed coreRegistry f) : (Reference.node rules s before n).nodeAt? f.name = none := by
  obtain ⟨behind, same⟩ := Reference.node_nodeAt rules s before n f.name
  rw [same, Node.nodeAt?, found]
  rcases Slot.statements_cases type repeated ofSlot with rfl | ⟨items, rfl | rfl, -⟩ <;> rfl

theorem loop_covers {target iter : Node} {names : Rule.LoopNames} (typed : n.WellTyped coreRegistry)
    (schema : n.schema = Core.forLoop)
    (targeted : (Reference.node rules s before n).nodeAt? "target" = some target)
    (iterated : (Reference.node rules s before n).nodeAt? "iter" = some iter)
    (flagged : names.exhausted = none → (Reference.node rules s before n).itemsAt "orelse" = [])
    (inside : child ∈ n.children) : ∃ behind, (Reference.lowered rules s behind child).visited ⊆
      (Replacement.ofNodes (Lowered.loop names ⟨target, iter, (Reference.node rules s before n).itemsAt "body",
        (Reference.node rules s before n).itemsAt "orelse"⟩)).visited := by
  obtain ⟨f, field, held, behind, found, ofSlot, part, there⟩ :=
    Reference.visitedAt_child rules s typed (by rw [schema]; decide) inside before
  refine ⟨behind, fun x met => loop_visited flagged ?_⟩
  have at_field := there met
  rw [schema] at field
  simp only [Core.forLoop, Core.statement, Core.member, List.mem_cons, List.not_mem_nil, or_false] at field
  rcases field with rfl | rfl | rfl | rfl | rfl
  · exact .inl (Node.visitedAt_node targeted ▸ at_field)
  · exact .inr (.inl (Node.visitedAt_node iterated ▸ at_field))
  · exact .inr (.inr (.inl (Node.visitedAt_items (statements_rebuilt rfl rfl found ofSlot) ▸ at_field)))
  · exact .inr (.inr (.inr (Node.visitedAt_items (statements_rebuilt rfl rfl found ofSlot) ▸ at_field)))
  · -- A comment is a text.
    cases held with
    | value v =>
      obtain ⟨⟨-, accepted⟩, -⟩ := ofSlot
      cases v with
      | str text => cases part
      | _ => cases accepted
    | _ => cases part

theorem assertion_covers {test : Node} (typed : n.WellTyped coreRegistry) (schema : n.schema = Core.assertion)
    (tested : (Reference.node rules s before n).nodeAt? "test" = some test) (inside : child ∈ n.children) :
    ∃ behind, (Reference.lowered rules s behind child).visited ⊆ (Replacement.ofNode
      (Lowered.raiseUnless test ((Reference.node rules s before n).nodeAt? "msg"))).visited := by
  obtain ⟨f, field, held, behind, found, ofSlot, part, there⟩ :=
    Reference.visitedAt_child rules s typed (by rw [schema]; decide) inside before
  refine ⟨behind, fun x met => raiseUnless_visited ?_⟩
  have at_field := there met
  rw [schema] at field
  simp only [Core.assertion, Core.statement, Core.member, List.mem_cons, List.not_mem_nil, or_false] at field
  rcases field with rfl | rfl
  · exact .inl (Node.visitedAt_node tested ▸ at_field)
  · rcases Slot.maybe_cases ofSlot with rfl | rfl | ⟨msg, rfl, -⟩
    · cases part
    · cases part
    · obtain ⟨_, same⟩ := Reference.node_nodeAt rules s before n "msg"
      have given : n.nodeAt? "msg" = some msg := by
        rw [Node.nodeAt?, show n.slot? "msg" = _ from found]
        rfl
      rw [given] at same
      exact .inr ⟨_, same, Node.visitedAt_node same ▸ at_field⟩

-- Of an augmented assignment the operator and the value are carried over.
theorem augmented_covers {id : String} {target op value : Node} (typed : n.WellTyped coreRegistry)
    (schema : n.schema = Core.augAssign) (targeted : n.nodeAt? "target" = some target)
    (operated : (Reference.node rules s before n).nodeAt? "op" = some op)
    (valued : (Reference.node rules s before n).nodeAt? "value" = some value) (inside : child ∈ n.children) :
    child = target ∨ ∃ behind, (Reference.lowered rules s behind child).visited ⊆
      (Replacement.ofNode (Lowered.spelledOut id op value)).visited := by
  obtain ⟨f, field, held, behind, found, ofSlot, part, there⟩ :=
    Reference.visitedAt_child rules s typed (by rw [schema]; decide) inside before
  rw [schema] at field
  simp only [Core.augAssign, Core.statement, Core.member, List.mem_cons, List.not_mem_nil, or_false] at field
  rcases field with rfl | rfl | rfl
  · left
    rw [Node.nodeAt?, show n.slot? "target" = _ from found] at targeted
    rcases Slot.one_cases ofSlot with rfl | ⟨c, rfl, -⟩
    · cases part
    · cases targeted
      exact List.mem_singleton.mp part
  · exact .inr ⟨behind, fun x met => spelledOut_visited (.inl (Node.visitedAt_node operated ▸ there met))⟩
  · exact .inr ⟨behind, fun x met => spelledOut_visited (.inr (Node.visitedAt_node valued ▸ there met))⟩

end Replaced

end TreeLowering
