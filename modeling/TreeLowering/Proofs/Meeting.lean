import TreeLowering.Proofs.Missing
import TreeLowering.Proofs.Inert

namespace TreeLowering

-- A failing completion leaves what comes behind the failure, so only successes can be told to be alike.
def Node.Meets (n m : Node) : Prop := ∃ done, n.finalize = (done, .ok ()) ∧ m.finalize = (done, .ok ())

def Value.Meets (v w : Value) : Prop :=
  ∃ done, v.finalizeElement = (done, .ok ()) ∧ w.finalizeElement = (done, .ok ())

def Slot.Meets (kind : String) (f : Field) (s t : Slot) : Prop :=
  ∃ done, s.finalize kind f = (done, .ok []) ∧ t.finalize kind f = (done, .ok [])

inductive Slot.AllMeet (kind : String) : List Field → List Slot → List Slot → Prop
  | nil : AllMeet kind [] [] []
  | cons {f : Field} {fs : List Field} {s t : Slot} {ss ts : List Slot} (first : s.Meets kind f t)
      (rest : AllMeet kind fs ss ts) : AllMeet kind (f :: fs) (s :: ss) (t :: ts)

-- The same number of nodes in a place, and they meet.
inductive Replacement.Meets : Replacement → Replacement → Prop
  | node {n m : Node} (meets : n.Meets m) : Meets (.ofNode n) (.ofNode m)
  | nodes {ns ms : List Node} (meet : List.Forall₂ Node.Meets ns ms) : Meets (.ofNodes ns) (.ofNodes ms)

section Parts

variable {kind : String} {f : Field} {n m : Node} {ns ms : List Node} {vs ws : List Value} {v w : Value}

theorem Value.node_meets (meets : n.Meets m) : (Value.node n).Meets (.node m) := by
  obtain ⟨done, first, second⟩ := meets
  have completed : ∀ n : Node, (Value.node n).finalizeElement = (.node n.finalize.1, n.finalize.2) := fun _ => rfl
  exact ⟨.node done, by rw [completed, first], by rw [completed, second]⟩

theorem Value.nodes_meet (meet : List.Forall₂ Node.Meets ns ms) :
    List.Forall₂ Value.Meets (ns.map .node) (ms.map .node) := by
  rw [List.forall₂_map_left_iff, List.forall₂_map_right_iff]
  exact meet.imp fun _ _ => Value.node_meets

theorem Replacement.Meets.elements {r t : Replacement} (meets : r.Meets t) :
    List.Forall₂ Value.Meets r.elements t.elements := by
  cases meets with
  | node meets => exact .cons (Value.node_meets meets) .nil
  | nodes meet => exact Value.nodes_meet meet

theorem Value.finalizeAll_meets (meet : List.Forall₂ Value.Meets vs ws) :
    ∃ done, Value.finalizeAll vs = (done, .ok ()) ∧ Value.finalizeAll ws = (done, .ok ()) := by
  induction meet with
  | nil => exact ⟨[], rfl, rfl⟩
  | cons first rest ih =>
    obtain ⟨done, left, right⟩ := first
    obtain ⟨others, lefts, rights⟩ := ih
    exact ⟨done :: others, by rw [finalizeAll_cons, left, lefts], by rw [finalizeAll_cons, right, rights]⟩

theorem Slot.node_meets (single : f.cardinality.isSequence = false) (meets : n.Meets m) :
    Slot.Meets kind f (.value (.node n)) (.value (.node m)) := by
  obtain ⟨done, first, second⟩ := meets
  have completed : ∀ n : Node, (Slot.value (.node n)).finalize kind f =
      (.value (.node n.finalize.1), n.finalize.2.map fun _ => []) := by
    intro n
    change (Slot.value ((Value.node n).finalizeIn f.cardinality.isSequence).1,
      ((Value.node n).finalizeIn f.cardinality.isSequence).2.map _) = _
    rw [single]
    rfl
  exact ⟨.value (.node done), by rw [completed, first]; rfl, by rw [completed, second]; rfl⟩

theorem Slot.items_meet (repeated : f.cardinality.isSequence = true) (first : v.items? = some vs)
    (second : w.items? = some ws) (meet : List.Forall₂ Value.Meets vs ws) :
    Slot.Meets kind f (.value v) (.value w) := by
  obtain ⟨done, left, right⟩ := Value.finalizeAll_meets meet
  have completed : ∀ {v : Value} {vs}, v.items? = some vs → (Slot.value v).finalize kind f =
      (.value (.tuple (Value.finalizeAll vs).1), (Value.finalizeAll vs).2.map fun _ => []) := by
    intro v vs found
    change (Slot.value (v.finalizeIn f.cardinality.isSequence).1,
      (v.finalizeIn f.cardinality.isSequence).2.map _) = _
    rw [repeated]
    cases v <;> cases found <;> rfl
  exact ⟨.value (.tuple done), by rw [completed first, left]; rfl, by rw [completed second, right]; rfl⟩

theorem Slot.AllMeet.finalizeAll {fs : List Field} {ss ts : List Slot} (meet : AllMeet kind fs ss ts) :
    ∃ done, Slot.finalizeAll kind fs ss = (done, .ok []) ∧ Slot.finalizeAll kind fs ts = (done, .ok []) := by
  induction meet with
  | nil => exact ⟨[], rfl, rfl⟩
  | cons first rest ih =>
    obtain ⟨done, left, right⟩ := first
    obtain ⟨others, lefts, rights⟩ := ih
    exact ⟨done :: others, by rw [finalizeAll_cons, left, lefts]; rfl, by rw [finalizeAll_cons, right, rights]; rfl⟩

theorem Node.meets_mk {schema : Schema} {ss ts : List Slot} (meet : Slot.AllMeet schema.kind schema.fields ss ts) :
    (Node.mk schema ss).Meets (.mk schema ts) := by
  obtain ⟨done, left, right⟩ := meet.finalizeAll
  exact ⟨.mk schema done, by rw [finalize, left], by rw [finalize, right]⟩

end Parts

namespace Lowered

section Emitted

variable {target target' value value' test test' op op' iter iter' : Node}
  {args args' : List Node} {body body' orelse orelse' : List Value}

theorem assign_meets (targets : target.Meets target') (values : value.Meets value') :
    (assign target value).Meets (assign target' value') :=
  Node.meets_mk (.cons (Slot.items_meet rfl rfl rfl (.cons (Value.node_meets targets) .nil))
    (.cons (Slot.node_meets rfl values) (.cons ⟨_, rfl, rfl⟩ .nil)))

theorem call_meets {func : String} (arguments : List.Forall₂ Node.Meets args args') :
    (call func args).Meets (call func args') :=
  Node.meets_mk (.cons ⟨_, rfl, rfl⟩ (.cons (Slot.items_meet rfl rfl rfl (Value.nodes_meet arguments))
    (.cons ⟨_, rfl, rfl⟩ .nil)))

theorem whileTrue_meets (bodies : List.Forall₂ Value.Meets body body') : (whileTrue body).Meets (whileTrue body') :=
  Node.meets_mk (.cons ⟨_, rfl, rfl⟩ (.cons (Slot.items_meet rfl rfl rfl bodies) (.cons ⟨_, rfl, rfl⟩ .nil)))

theorem ifThen_meets (tests : test.Meets test') (bodies : List.Forall₂ Value.Meets body body') :
    (ifThen test body []).Meets (ifThen test' body' []) :=
  Node.meets_mk (.cons (Slot.node_meets rfl tests) (.cons (Slot.items_meet rfl rfl rfl bodies)
    (.cons ⟨_, rfl, rfl⟩ .nil)))

theorem spelledOut_meets (id : String) (operators : op.Meets op') (values : value.Meets value') :
    (spelledOut id op value).Meets (spelledOut id op' value') := by
  have results : (binOp (load id) op value).Meets (binOp (load id) op' value') :=
    Node.meets_mk (.cons ⟨_, rfl, rfl⟩ (.cons (Slot.node_meets rfl operators)
      (.cons (Slot.node_meets rfl values) .nil)))
  exact assign_meets ⟨_, rfl, rfl⟩ results

theorem raiseUnless_meets {msg msg' : Option Node} (tests : test.Meets test')
    (messages : List.Forall₂ Node.Meets msg.toList msg'.toList) :
    (raiseUnless test msg).Meets (raiseUnless test' msg') := by
  have failed : (negation test).Meets (negation test') :=
    Node.meets_mk (.cons ⟨_, rfl, rfl⟩ (.cons (Slot.node_meets rfl tests) .nil))
  have raised : (raise (call "AssertionError" msg.toList)).Meets (raise (call "AssertionError" msg'.toList)) :=
    Node.meets_mk (.cons (Slot.node_meets rfl (call_meets messages)) (.cons ⟨_, rfl, rfl⟩ .nil))
  exact ifThen_meets failed (.cons (Value.node_meets raised) .nil)

theorem loop_meets (names : Rule.LoopNames) (targets : target.Meets target') (iters : iter.Meets iter')
    (bodies : List.Forall₂ Value.Meets body body') (orelses : List.Forall₂ Value.Meets orelse orelse') :
    List.Forall₂ Node.Meets (loop names ⟨target, iter, body, orelse⟩) (loop names ⟨target', iter', body', orelse'⟩) := by
  have flags : ∀ b, List.Forall₂ Node.Meets (flag names b) (flag names b) := by
    intro b
    unfold flag
    cases names.exhausted with
    | none => exact .nil
    | some _ => exact .cons ⟨_, rfl, rfl⟩ .nil
  have step : (advance names).Meets (advance names) := by
    unfold advance flag
    cases names.exhausted <;> exact ⟨_, rfl, rfl⟩
  have turns : List.Forall₂ Value.Meets (turn names ⟨target, iter, body, orelse⟩)
      (turn names ⟨target', iter', body', orelse'⟩) :=
    .cons (Value.node_meets step) (.cons (Value.node_meets (assign_meets targets ⟨_, rfl, rfl⟩)) bodies)
  refine List.rel_append (List.rel_append (flags false) (.cons ?_ (.cons (whileTrue_meets turns) .nil))) ?_
  · exact assign_meets ⟨_, rfl, rfl⟩ (call_meets (.cons iters .nil))
  · cases names.exhausted with
    | none => exact .nil
    | some flag => exact .cons (ifThen_meets ⟨_, rfl, rfl⟩ orelses) .nil

end Emitted

end Lowered

section Completed

variable {r : Registry} {kind : String} {f : Field} {held : Slot}

theorem Slot.completed_cases (plain : f.Plain) (typed : held.Typed r f) (ok : (held.finalize kind f).2 = .ok []) :
    (held.value? = none ∧ ((held.finalize kind f).1 = .explicitNone ∨
      f.cardinality.isSequence = true ∧ (held.finalize kind f).1 = .value (.tuple []))) ∨
    (∃ v items, held = .value v ∧ f.cardinality.isSequence = true ∧ v.items? = some items ∧
      (held.finalize kind f).1 = .value (.tuple (items.map fun v => v.finalizeElement.1)) ∧
      ∀ v ∈ items, v.finalizeElement.2 = .ok ()) ∨
    (∃ n, held = .value (.node n) ∧ f.cardinality.isSequence = false ∧
      (held.finalize kind f).1 = .value (.node n.finalize.1) ∧ n.finalize.2 = .ok ()) ∨
    ∃ v, held = .value v ∧ v.items? = none ∧ v.node? = none ∧ (held.finalize kind f).1 = held := by
  cases held with
  | unset =>
    unfold finalize at ok ⊢
    cases card : f.cardinality with
    | optional => exact .inl ⟨rfl, .inl rfl⟩
    | zeroOrMore => exact .inl ⟨rfl, .inr ⟨rfl, rfl⟩⟩
    | _ =>
      rw [card] at ok
      cases ok
  | explicitNone => exact .inl ⟨rfl, .inl rfl⟩
  | value v =>
    obtain ⟨fits, -⟩ := typed
    have whole : (v.finalizeIn f.cardinality.isSequence).2 = .ok () := by
      change (v.finalizeIn f.cardinality.isSequence).2.map _ = _ at ok
      cases outcome : (v.finalizeIn f.cardinality.isSequence).2 with
      | ok => rfl
      | error e =>
        rw [outcome] at ok
        cases ok
    have after : ((Slot.value v).finalize kind f).1 = .value (v.finalizeIn f.cardinality.isSequence).1 := rfl
    right
    rcases Value.finalizeIn_cases f.cardinality.isSequence v with
      ⟨items, repeated, found, done⟩ | ⟨n, single, rfl, done⟩ | ⟨notItems, notNode, done⟩ <;>
      rw [done] at whole after
    · obtain ⟨same, all⟩ := Value.finalizeAll_ok whole
      rw [same] at after
      exact .inl ⟨v, items, rfl, repeated, found, after, all⟩
    · exact .inr (.inl ⟨n, rfl, single, after, whole⟩)
    · cases repeated : f.cardinality.isSequence with
      | true =>
        obtain ⟨items, found, -⟩ := Field.fits_repeated repeated fits
        rw [notItems repeated] at found
        cases found
      | false =>
        have accepted := ((Field.fits_single repeated plain.known).mp fits).2
        exact .inr (.inr ⟨v, rfl, ElementType.accepts_flat plain.flat accepted, notNode repeated, after⟩)

-- What a rule reads off a completed slot.
theorem Slot.completed_reads (plain : f.Plain) (typed : held.Typed r f) (ok : (held.finalize kind f).2 = .ok []) :
    (held.finalize kind f).1.node? = held.node?.map (fun n => n.finalize.1) ∧
    (held.finalize kind f).1.items = held.items.map (fun v => v.finalizeElement.1) ∧
    (held.finalize kind f).1.value?.bind Value.text? = held.value?.bind Value.text? := by
  rcases completed_cases plain typed ok with ⟨unheld, same | ⟨-, same⟩⟩ | ⟨v, items, rfl, -, found, same, -⟩ |
    ⟨n, rfl, -, same, -⟩ | ⟨v, rfl, notItems, notNode, same⟩
  · rw [same]
    cases held <;> cases unheld <;> exact ⟨rfl, rfl, rfl⟩
  · rw [same]
    cases held <;> cases unheld <;> exact ⟨rfl, rfl, rfl⟩
  · rw [same]
    cases v <;> cases found <;> exact ⟨rfl, rfl, rfl⟩
  · rw [same]
    exact ⟨rfl, rfl, rfl⟩
  · rw [same]
    cases v with
    | node n => cases notNode
    | list items => cases notItems
    | tuple items => cases notItems
    | _ => exact ⟨rfl, rfl, rfl⟩

end Completed

namespace Node

variable {n m : Node} {name : String}

theorem completes_slots (completes : n.finalize.2 = .ok ()) :
    (Slot.finalizeAll n.kind n.schema.fields n.slots).2 = .ok [] := by
  rw [finalize_outcome] at completes
  split at completes
  · cases completes
  · assumption
  · cases completes

theorem completed_slot (typed : n.WellTyped coreRegistry) (completes : n.finalize.2 = .ok ()) (name : String) :
    (n.slot? name = none ∧ n.finalize.1.slot? name = none) ∨ ∃ f ∈ n.schema.fields, ∃ held,
      n.slot? name = some held ∧ held.Typed coreRegistry f ∧ (held.finalize n.kind f).2 = .ok [] ∧
        n.finalize.1.slot? name = some (held.finalize n.kind f).1 := by
  have whole := completes_slots completes
  unfold slot?
  rw [finalize_schema, finalize_slots]
  cases found : n.schema.fieldIndex? name with
  | none => exact .inl ⟨rfl, rfl⟩
  | some index =>
    obtain ⟨f, field, -⟩ := fieldIndex_field found
    have bound : index < n.slots.length := typed.sized ▸ (List.getElem?_eq_some_iff.mp field).1
    have place := List.getElem?_eq_getElem bound
    obtain ⟨after, names, ok, inside⟩ := Slot.finalizeAll_ok whole field place
    rw [List.eq_nil_iff_forall_not_mem.mpr fun name given => List.not_mem_nil (inside name given)] at ok
    exact .inr ⟨f, List.mem_of_getElem? field, _, place, (wellTyped_index.mp typed).2.2 index f _ field place, ok,
      after⟩

theorem child_completes {child : Node} (typed : n.WellTyped coreRegistry) (completes : n.finalize.2 = .ok ())
    (inside : child ∈ n.children) : child.finalize.2 = .ok () := by
  obtain ⟨index, f, held, field, place, ofSlot, part⟩ := child_slot typed inside
  obtain ⟨-, names, ok, -⟩ := Slot.finalizeAll_ok (completes_slots completes) field place
  exact Slot.finalize_children (core_plain n.schema typed.member f (List.mem_of_getElem? field)) ofSlot ok child part

theorem unset_missing (typed : n.WellTyped coreRegistry) (unset : n.isSet name = false)
    (distinct : (n.schema.fields.map Field.name).Nodup) (mandatory : name ∈ n.schema.mandatory) : n.missing ≠ [] := by
  rw [missing_unset typed.sized distinct, Ne, List.filter_eq_nil_iff]
  intro nothing
  simpa [unset] using nothing name mandatory

theorem completes_missing (completes : n.finalize.2 = .ok ()) : n.missing = [] :=
  (Slot.finalizeAll_missing (completes_slots completes)).symm

theorem itemsAt_slot (n : Node) (name : String) : n.itemsAt name = ((n.slot? name).map Slot.items).getD [] := by
  unfold itemsAt get?
  cases n.slot? name <;> rfl

theorem completed_reads (typed : n.WellTyped coreRegistry) (completes : n.finalize.2 = .ok ()) (name : String) :
    n.finalize.1.nodeAt? name = (n.nodeAt? name).map (fun m => m.finalize.1) ∧
    n.finalize.1.itemsAt name = (n.itemsAt name).map (fun v => v.finalizeElement.1) ∧
    n.finalize.1.textAt? name = n.textAt? name := by
  rw [itemsAt_slot, itemsAt_slot]
  unfold nodeAt? textAt? get?
  rcases completed_slot typed completes name with ⟨absent, missing⟩ | ⟨f, field, held, slot, ofSlot, ok, after⟩
  · rw [absent, missing]
    exact ⟨rfl, rfl, rfl⟩
  · rw [slot, after]
    exact Slot.completed_reads (core_plain n.schema typed.member f field) ofSlot ok

theorem finalize_kind : n.finalize.1.kind = n.kind := by
  rw [kind, kind, finalize_schema]

theorem Inert.finalize (inert : n.Inert) : n.finalize.1.Inert := by
  intro m met
  obtain ⟨k, before, alike⟩ := finalize_visited n m met
  rw [kind, alike.schema]
  exact inert k before

theorem Finished.missing (finished : n.Finished) : ∀ m ∈ n.visited, m.missing = [] := by
  intro m met
  unfold Node.missing
  refine List.flatMap_eq_nil_iff.mpr fun (f, s) member => Slot.missing_set ?_
  obtain ⟨index, place⟩ := List.getElem?_of_mem member
  obtain ⟨field, slot⟩ := List.getElem?_zip_eq_some.mp place
  exact (finished m met index f s field slot).1

end Node

end TreeLowering
