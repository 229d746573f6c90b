import TreeLowering.Proofs.Meeting

namespace TreeLowering

namespace Reference

variable {rules : List String} {s : NameSupply} {n : Node} {earlier before : List Node}

-- What comes in the place of a node meets what comes in the place of the completed node.
structure Agrees (rules : List String) (s : NameSupply) (n : Node) : Prop where
  meets {earlier before : List Node} : AsMany earlier before →
    (lowered rules s earlier n.finalize.1).Meets (lowered rules s before n)
  uses : AsMany (loops rules n.finalize.1.postorder) (loops rules n.postorder)

theorem items_agree (vs : List Value) (below : ∀ n, .node n ∈ vs → Agrees rules s n) (same : AsMany earlier before) :
    List.Forall₂ Value.Meets (items rules s earlier (vs.map fun v => v.finalizeElement.1)) (items rules s before vs) ∧
    AsMany (loops rules (Value.postorderAll (vs.map fun v => v.finalizeElement.1)))
      (loops rules (Value.postorderAll vs)) := by
  induction vs generalizing earlier before with
  | nil => exact ⟨.nil, fun _ => rfl⟩
  | cons v rest ih =>
    have others := fun n member => below n (List.mem_cons_of_mem _ member)
    have element : List.Forall₂ Value.Meets (element rules s earlier v.finalizeElement.1)
          (element rules s before v) ∧
        AsMany (loops rules v.finalizeElement.1.postorderElement) (loops rules v.postorderElement) := by
      cases v with
      | node n =>
        have agrees := below n (List.mem_cons_self ..)
        exact ⟨(agrees.meets same).elements, agrees.uses⟩
      | _ => exact ⟨.cons ⟨_, rfl, rfl⟩ .nil, fun _ => rfl⟩
    obtain ⟨meet, counts⟩ := ih others (same.append element.2)
    rw [List.map_cons, items, items, Value.postorderAll, Value.postorderAll, loops_append, loops_append]
    exact ⟨List.rel_append element.1 meet, element.2.append counts⟩

section Slots

variable {kind : String} {schema : Schema} {f : Field}

theorem slot_agrees (member : schema ∈ coreRegistry.schemas) (field : f ∈ schema.fields) {held : Slot}
    (typed : held.Typed coreRegistry f) (ok : (held.finalize kind f).2 = .ok [])
    (below : ∀ child ∈ held.children, Agrees rules s child) (same : AsMany earlier before) :
    (slot rules s earlier (held.finalize kind f).1).Meets kind f (slot rules s before held) ∧
    AsMany (loops rules (held.finalize kind f).1.postorder) (loops rules held.postorder) := by
  have plain := core_plain schema member f field
  rcases Slot.completed_cases plain typed ok with ⟨unheld, after | ⟨repeated, after⟩⟩ |
    ⟨v, items, rfl, repeated, found, after, -⟩ | ⟨n, rfl, single, after, -⟩ | ⟨v, rfl, notItems, notNode, after⟩
  · have kept : slot rules s before held = held ∧ held.postorder = [] := by
      cases held <;> cases unheld <;> exact ⟨rfl, rfl⟩
    rw [after, kept.1, kept.2]
    exact ⟨⟨_, rfl, Prod.ext after ok⟩, fun _ => rfl⟩
  · have kept : slot rules s before held = held ∧ held.postorder = [] := by
      cases held <;> cases unheld <;> exact ⟨rfl, rfl⟩
    have empty : (Slot.value (.tuple [])).finalize kind f = (.value (.tuple []), .ok []) := by
      change (Slot.value ((Value.tuple []).finalizeIn _).1, _) = _
      rw [repeated]
      rfl
    rw [after, kept.1, kept.2]
    exact ⟨⟨_, empty, Prod.ext after ok⟩, fun _ => rfl⟩
  · have inside : ∀ n, .node n ∈ items → n ∈ (Slot.value v).children :=
      fun n element => Value.mem_children.mpr (.inr ⟨items, found, element⟩)
    obtain ⟨meet, counts⟩ := items_agree items (fun n element => below n (inside n element)) same
    rw [after]
    refine ⟨?_, ?_⟩
    · cases v <;> cases found <;> exact Slot.items_meet repeated rfl rfl meet
    · cases v <;> cases found <;> exact counts
  · have agrees := below n (List.mem_singleton_self _)
    have other := Desugarer.unreplaced_field member field typed.2 typed.1
    have meets := agrees.meets same
    rw [lowered, place_unread (reading_other (by rwa [node_kind, Node.finalize_kind])), lowered,
      place_unread (reading_other (by rwa [node_kind]))] at meets
    rw [after]
    cases meets with
    | node meets => exact ⟨Slot.node_meets single meets, agrees.uses⟩
  · rw [after]
    have kept : ∀ earlier, slot rules s earlier (.value v) = .value v := by
      intro earlier
      cases v with
      | node n => cases notNode
      | list items => cases notItems
      | tuple items => cases notItems
      | _ => rfl
    rw [kept, kept]
    exact ⟨⟨_, Prod.ext after ok, Prod.ext after ok⟩, fun _ => rfl⟩

theorem slots_agree (member : schema ∈ coreRegistry.schemas) {fs : List Field} {ss : List Slot}
    (fields : ∀ f ∈ fs, f ∈ schema.fields) (typed : Slot.AllTyped coreRegistry fs ss)
    (ok : (Slot.finalizeAll kind fs ss).2 = .ok [])
    (below : ∀ held ∈ ss, ∀ child ∈ held.children, Agrees rules s child)
    (same : AsMany earlier before) :
    Slot.AllMeet kind fs (slots rules s earlier (Slot.finalizeAll kind fs ss).1) (slots rules s before ss) ∧
    AsMany (loops rules (Slot.postorderAll (Slot.finalizeAll kind fs ss).1)) (loops rules (Slot.postorderAll ss)) := by
  induction fs generalizing ss earlier before with
  | nil =>
    cases Slot.allTyped_nil typed
    exact ⟨.nil, fun _ => rfl⟩
  | cons f fs ih =>
    obtain ⟨held, rest, rfl, first, others⟩ := Slot.allTyped_cons typed
    rw [List.forall_mem_cons] at fields below
    rw [Slot.finalizeAll_cons] at ok ⊢
    have own : (held.finalize kind f).2 = .ok [] → _ := fun ok => slot_agrees member fields.1 first ok below.1 same
    generalize held.finalize kind f = completed at ok own ⊢
    obtain ⟨after, outcome⟩ := completed
    cases outcome with
    | error e => cases ok
    | ok missing =>
      -- Nothing is missing in the slot, and nothing in the others.
      have parts : missing = [] ∧ (Slot.finalizeAll kind fs rest).2 = .ok [] := by
        cases later : (Slot.finalizeAll kind fs rest).2 with
        | error e =>
          rw [later] at ok
          cases ok
        | ok names =>
          rw [later] at ok
          obtain ⟨rfl, rfl⟩ := List.append_eq_nil_iff.mp (Except.ok.inj ok)
          exact ⟨rfl, rfl⟩
      obtain ⟨rfl, later⟩ := parts
      obtain ⟨meets, counts⟩ := own rfl
      obtain ⟨meet, allCounts⟩ := ih fields.2 others later below.2 (same.append counts)
      dsimp only
      rw [slots, slots, Slot.postorderAll, Slot.postorderAll, loops_append, loops_append]
      exact ⟨.cons meets meet, counts.append allCounts⟩

end Slots

section Nodes

-- Nothing in an expression is replaced, so it meets its completion.
theorem expression_meets (agrees : Agrees rules s n) (inert : n.Inert) : n.finalize.1.Meets n := by
  have meets := agrees.meets (.refl [])
  have kept : ∀ {m : Node}, m.Inert → lowered rules s [] m = .ofNode m :=
    fun inert => lowered_same (inert_unread rules inert) []
  rw [kept inert, kept inert.finalize] at meets
  cases meets with
  | node meets => exact meets

variable (typed : n.WellTyped coreRegistry) (completes : n.finalize.2 = .ok ())
  (below : ∀ child ∈ n.children, Agrees rules s child)

include typed completes below

theorem node_agrees (same : AsMany earlier before) :
    (node rules s earlier n.finalize.1).Meets (node rules s before n) ∧
      AsMany (loops rules n.finalize.1.beneath) (loops rules n.beneath) := by
  obtain ⟨meet, counts⟩ := slots_agree typed.member (fun _ => id)
    (Slot.allTyped_index.mpr (Node.wellTyped_index.mp typed).2) (Node.completes_slots completes)
    (fun held slot child inside => below child (Node.mem_children.mpr ⟨held, slot, inside⟩)) same
  rw [node_slots, node_slots (n := n), Node.beneath, Node.finalize_schema, Node.finalize_slots]
  exact ⟨Node.meets_mk meet, counts⟩

theorem loop_agrees (kind : n.kind = "For") (rule : Rule.forLoopName ∈ rules)
    (same : AsMany earlier before) : (lowered rules s earlier n.finalize.1).Meets (lowered rules s before n) := by
  have schema := (core_kind (s := Core.forLoop) (by simp [Core.schemas]) typed).mp kind
  have reads := Node.completed_reads typed completes
  rcases Rule.Loop.ofNode_cases Rule.forLoopName typed schema with
    ⟨⟨target, iter, _, _⟩, -, -, targeted, iterated, -, -⟩ | ⟨field, part, unset, -⟩
  · have meets : ∀ {name child}, n.nodeAt? name = some child →
        (∀ f ∈ n.schema.fields, f.name = name → Core.expressiveField f = true) → child.finalize.1.Meets child :=
      fun found fields => expression_meets (below _ (Node.nodeAt_child found)) (Node.nodeAt_inert typed found fields)
    have targets := meets targeted (by rw [schema]; decide)
    have iters := meets iterated (by rw [schema]; decide)
    have inBody := items_agree (n.itemsAt "body") (fun c member => below c (Node.itemsAt_child member)) same
    have inOrelse := items_agree (n.itemsAt "orelse") (fun c member => below c (Node.itemsAt_child member))
      (same.append inBody.2)
    have flagged : n.finalize.1.hasElse = n.hasElse := by
      unfold Node.hasElse
      rw [(reads "orelse").2.1, List.isEmpty_map]
    rw [lowered_loop typed schema rule targeted iterated,
      lowered_loop (n.finalize_typed typed) (Node.finalize_schema.trans schema) rule
        (by rw [(reads "target").1, targeted]; rfl) (by rw [(reads "iter").1, iterated]; rfl),
      (reads "body").2.1, (reads "orelse").2.1, flagged,
      loopNames_same (same.append (inBody.2.append inOrelse.2))]
    exact .nodes (Lowered.loop_meets _ targets iters inBody.1 inOrelse.1)
  · refine absurd (Node.completes_missing completes) (Node.unset_missing typed unset (by rw [schema]; decide) ?_)
    rw [schema]
    simp only [List.mem_cons, List.not_mem_nil, or_false] at part
    rcases part with rfl | rfl <;> decide

theorem assertion_agrees (kind : n.kind = "Assert") (rule : Rule.assertName ∈ rules) :
    (lowered rules s earlier n.finalize.1).Meets (lowered rules s before n) := by
  have schema := (core_kind (s := Core.assertion) (by simp [Core.schemas]) typed).mp kind
  have typedAfter := n.finalize_typed typed
  have schemaAfter := Node.finalize_schema.trans schema
  have inert : ∀ child ∈ n.children, child.Inert := Node.expressions_inert typed (by rw [schema]; decide)
  have inertAfter : ∀ child ∈ n.finalize.1.children, child.Inert :=
    Node.expressions_inert typedAfter (by rw [schemaAfter]; decide)
  have reads := Node.completed_reads typed completes
  have meets : ∀ {name child}, n.nodeAt? name = some child → child.finalize.1.Meets child := fun found =>
    expression_meets (below _ (Node.nodeAt_child found)) (inert _ (Node.nodeAt_child found))
  rcases Rule.raiseUnless_cases core_lowers typed schema with ⟨test, tested, -⟩ | ⟨unset, -⟩
  · have readAfter := reading_asserted (n := n.finalize.1) (Node.finalize_kind.trans kind) rule
      (by rw [(reads "test").1, tested]; rfl)
    rw [lowered_kept inert, lowered_kept inertAfter, place, place, reading_asserted kind rule tested, readAfter,
      (reads "msg").1]
    refine .node (Lowered.raiseUnless_meets (meets tested) ?_)
    cases given : n.nodeAt? "msg" with
    | none => exact .nil
    | some msg => exact .cons (meets given) .nil
  · exact absurd (Node.completes_missing completes)
      (Node.unset_missing typed unset (by rw [schema]; decide) (by rw [schema]; decide))

theorem augmented_agrees {target : Node} (kind : n.kind = "AugAssign") (rule : Rule.augAssignName ∈ rules)
    (targeted : n.nodeAt? "target" = some target) (isName : target.kind = "Name") :
    (lowered rules s earlier n.finalize.1).Meets (lowered rules s before n) := by
  have schema := (core_kind (s := Core.augAssign) (by simp [Core.schemas]) typed).mp kind
  have typedAfter := n.finalize_typed typed
  have schemaAfter := Node.finalize_schema.trans schema
  have inert : ∀ child ∈ n.children, child.Inert := Node.expressions_inert typed (by rw [schema]; decide)
  have inertAfter : ∀ child ∈ n.finalize.1.children, child.Inert :=
    Node.expressions_inert typedAfter (by rw [schemaAfter]; decide)
  have reads := Node.completed_reads typed completes
  have meets : ∀ {name child}, n.nodeAt? name = some child → child.finalize.1.Meets child := fun found =>
    expression_meets (below _ (Node.nodeAt_child found)) (inert _ (Node.nodeAt_child found))
  -- The target is complete with the rest, and its name is read off it either way.
  have inside := Node.nodeAt_child targeted
  have typedTarget := Node.child_typed typed inside
  have completeTarget := Node.child_completes typed completes inside
  have targetSchema := (core_kind (s := Core.name) (by simp [Core.schemas]) typedTarget).mp isName
  rcases Rule.spelledOut_cases core_lowers typed schema targeted targetSchema with
    ⟨id, op, value, text, -, operated, -, valued, -⟩ | ⟨field, part, unset, -⟩ | ⟨unset, -⟩
  · have readAfter := reading_augmented (n := n.finalize.1) (Node.finalize_kind.trans kind) rule
      (by rw [(reads "target").1, targeted]; rfl) (Node.finalize_kind.trans isName)
      ((Node.completed_reads typedTarget completeTarget "id").2.2.trans text)
      (by rw [(reads "op").1, operated]; rfl) (by rw [(reads "value").1, valued]; rfl)
    rw [lowered_kept inert, lowered_kept inertAfter, place, place,
      reading_augmented kind rule targeted isName text operated valued, readAfter]
    exact .node (Lowered.spelledOut_meets id (meets operated) (meets valued))
  · refine absurd (Node.completes_missing completes) (Node.unset_missing typed unset (by rw [schema]; decide) ?_)
    rw [schema]
    simp only [List.mem_cons, List.not_mem_nil, or_false] at part
    rcases part with rfl | rfl <;> decide
  · exact absurd (Node.completes_missing completeTarget)
      (Node.unset_missing typedTarget unset (by rw [targetSchema]; decide) (by rw [targetSchema]; decide))

theorem place_agrees (same : AsMany earlier before) :
    (lowered rules s earlier n.finalize.1).Meets (lowered rules s before n) := by
  cases chosen : (Rule.for? n).filter fun rule => rules.contains rule.name with
  | none =>
    have unread : ∀ {m : Node}, n.Alike m → reading? rules m = none := by
      intro m alike
      refine reading_none ?_
      rw [Rule.for_alike alike]
      exact chosen
    have first : reading? rules (node rules s earlier n.finalize.1) = none := by
      refine unread ⟨node_schema.trans Node.finalize_schema, fun name => ?_⟩
      rw [(node_alike earlier).children, Node.finalize_alike.children]
    rw [lowered_unread first, lowered_unread (unread (node_alike before))]
    exact .node (node_agrees typed completes below same).1
  | some rule =>
    obtain ⟨found, named⟩ := Option.filter_eq_some_iff.mp chosen
    have isRule := List.contains_iff_mem.mp named
    rcases Rule.for_cases found with ⟨rfl, kind⟩ | ⟨rfl, kind⟩ | ⟨rfl, kind, target, targeted, isName⟩
    · exact loop_agrees typed completes below kind isRule same
    · exact assertion_agrees typed completes below kind isRule
    · exact augmented_agrees typed completes below kind isRule targeted isName

end Nodes

-- The induction goes up the tree; at each node it is the rule that applies to its kind that has to agree.
theorem completed_agrees (rules : List String) (s : NameSupply) (n : Node) :
    n.WellTyped coreRegistry → n.finalize.2 = .ok () → Agrees rules s n := by
  induction n using Node.children_induct with
  | step n ih =>
    intro typed completes
    have below : ∀ child ∈ n.children, Agrees rules s child := fun child inside =>
      ih child inside (Node.child_typed typed inside) (Node.child_completes typed completes inside)
    refine ⟨place_agrees typed completes below, ?_⟩
    rw [Node.postorder_beneath, Node.postorder_beneath, loops_append, loops_append]
    refine (node_agrees typed completes below (.refl [])).2.append ?_
    rw [loops_one, loops_one, Node.finalize_kind]
    split
    · refine .one ?_
      unfold Node.hasElse
      rw [(Node.completed_reads typed completes "orelse").2.1, List.isEmpty_map]
    · exact fun _ => rfl

end Reference

namespace Desugarer

open Reference (AsMany lowered)

variable {d : Desugarer} {names : List String} {root : Node} {s : NameSupply} {e : RewriteError}

theorem lacks_missing (typed : root.WellTyped coreRegistry) (lacks : d.Lacks root e) :
    ∃ m ∈ root.visited, m.missing ≠ [] := by
  have unset : ∀ {m name}, m ∈ root.visited → m.isSet name = false → (m.schema.fields.map Field.name).Nodup →
      name ∈ m.schema.mandatory → ∃ m ∈ root.visited, m.missing ≠ [] :=
    fun met unset distinct mandatory =>
      ⟨_, met, Node.unset_missing (Node.visited_typed typed met) unset distinct mandatory⟩
  cases lacks with
  | loop rule met kind part missing =>
    have schema := (core_kind (s := Core.forLoop) (by simp [Core.schemas]) (Node.visited_typed typed met)).mp kind
    refine unset met missing (by rw [schema]; decide) ?_
    rw [schema]
    simp only [List.mem_cons, List.not_mem_nil, or_false] at part
    rcases part with rfl | rfl <;> decide
  | augmented rule met kind target isName part missing =>
    have schema := (core_kind (s := Core.augAssign) (by simp [Core.schemas]) (Node.visited_typed typed met)).mp kind
    refine unset met missing (by rw [schema]; decide) ?_
    rw [schema]
    simp only [List.mem_cons, List.not_mem_nil, or_false] at part
    rcases part with rfl | rfl <;> decide
  | nameless rule met kind target isName missing =>
    have inside := Node.nodeAt_child target
    have typedTarget := Node.child_typed (Node.visited_typed typed met) inside
    have schema := (core_kind (s := Core.name) (by simp [Core.schemas]) typedTarget).mp isName
    refine unset (Node.visited_trans met ?_) missing (by rw [schema]; decide) (by rw [schema]; decide)
    exact Node.mem_visited.mpr (.inr ⟨_, inside, Node.self_visited _⟩)
  | untested rule met kind missing =>
    have schema := (core_kind (s := Core.assertion) (by simp [Core.schemas]) (Node.visited_typed typed met)).mp kind
    exact unset met missing (by rw [schema]; decide) (by rw [schema]; decide)

-- Whatever is complete can be completed first: the run gives the same tree or the same refusal, and has drawn as
-- many names.
theorem completed_first (made : ofNames coreRegistry names = .ok d) (typed : root.WellTyped coreRegistry)
    (completes : root.finalize.2 = .ok ()) (s : NameSupply) :
    ((d.run root.finalize.1).run s).1 = ((d.run root).run s).1 ∧
    ∀ hint, ((d.run root.finalize.1).run s).2.issued hint = ((d.run root).run s).2.issued hint := by
  obtain ⟨indexed, -⟩ := ofNames_made made
  obtain ⟨_, same, builtin, registry⟩ := ofNames_builtin (r := coreRegistry) (ofNames_known made)
  cases made.symm.trans same
  have typedAfter := root.finalize_typed typed
  -- Nothing is missing in either tree, so both are rewritten.
  have whole : ∀ m ∈ root.visited, m.missing = [] := by
    rcases Node.finalize_complete core_plain root typed with ⟨-, complete⟩ | ⟨m, -, -, broken⟩
    · exact complete
    · rw [completes] at broken
      cases broken
  have wholeAfter : ∀ m ∈ root.finalize.1.visited, m.missing = [] :=
    (Node.finalize_finished core_plain root typed completes).missing
  obtain ⟨rest, ran, drawn⟩ := Reference.rewrite_lowered builtin registry indexed typed (fun e lacks => by
    obtain ⟨m, met, missing⟩ := lacks_missing typed lacks
    exact missing (whole m met)) s
  obtain ⟨restAfter, ranAfter, drawnAfter⟩ := Reference.rewrite_lowered builtin registry indexed typedAfter
    (fun e lacks => by
      obtain ⟨m, met, missing⟩ := lacks_missing typedAfter lacks
      exact missing (wholeAfter m met)) s
  have agrees := Reference.completed_agrees d.ruleNames s root typed completes
  have meets := agrees.meets (.refl [])
  obtain ⟨sameNames, -⟩ := run_exact builtin registry typed s
  obtain ⟨sameNamesAfter, -⟩ := run_exact builtin registry typedAfter s
  refine ⟨?_, fun hint => ?_⟩
  · rw [run_complete builtin registry typed, run_complete builtin registry typedAfter, complete, complete,
      Walk.run_bind, Walk.run_bind, ran, ranAfter]
    generalize lowered d.ruleNames s [] root.finalize.1 = first at meets
    generalize lowered d.ruleNames s [] root = second at meets
    cases meets with
    | node meets =>
      obtain ⟨done, left, right⟩ := meets
      simp only [rooted, Replacement.ofNode, left, right]
      rfl
    | nodes meet =>
      simp only [rooted, Replacement.ofNodes, describe, List.length_map, meet.length_eq, Node.finalize_kind]
  · rw [sameNames, sameNamesAfter, ran, ranAfter, drawn.counted, drawnAfter.counted, agrees.uses]

theorem pollingLoop_completed_first : ∃ d, ofNames coreRegistry ["assert", "for-loop", "assert"] = .ok d ∧
    pollingLoop.finalize.2 = .ok () ∧ ∀ s, ((d.run pollingLoop.finalize.1).run s).1 = ((d.run pollingLoop).run s).1 := by
  obtain ⟨d, made, -⟩ := ofNames_builtin (r := coreRegistry)
    (show ∀ name ∈ ["assert", "for-loop", "assert"], (Rule.ofName? name).isSome from by decide)
  exact ⟨d, made, rfl, fun s => (completed_first made pollingLoop_typed rfl s).1⟩

end Desugarer

end TreeLowering
