import TreeLowering.Proofs.Resumption
import TreeLowering.Proofs.Fixpoint
import TreeLowering.Proofs.TypeCheck

namespace TreeLowering

def Node.surveyed (n : Node) : List Node := n.survey (fun _ m met => (met ++ [m], true)) 0 []

def noting (n : Node) : Walk (List Node) NodeError (Visit (List Node) NodeError) := do
  modify fun met => met ++ [n]
  return .generic

theorem Node.surveyed_visited (n : Node) : n.surveyed = n.visited := by
  have gathered : ∀ (ns met : List Node), ns.foldl (fun met m => met ++ [m]) met = met ++ ns := by
    intro ns
    induction ns with
    | nil => exact fun met => (List.append_nil met).symm
    | cons m rest ih => exact fun met => by rw [List.foldl_cons, ih, List.append_assoc, List.singleton_append]
  exact (n.survey_fold _ 0 []).trans (gathered n.visited [])

section Noting

variable {r : Registry} {n : Node}

theorem elements_noted {items : List Value}
    (below : ∀ n, .node n ∈ items → ∀ met, (n.transform noting).run met = (.ok (.ofNode n), met ++ n.visited))
    (met : List Node) : (Value.descendAll noting items).run met = (.ok items, met ++ Value.visitedAll items) := by
  induction items generalizing met with
  | nil => exact congrArg (Prod.mk _) (List.append_nil met).symm
  | cons v rest ih =>
    have others := ih fun n inside => below n (List.mem_cons_of_mem _ inside)
    have plain : v.visitedElement = [] → (do
        let rest ← Value.descendAll noting rest
        return v :: rest : Walk (List Node) NodeError (List Value)).run met =
          (.ok (v :: rest), met ++ Value.visitedAll (v :: rest)) := by
      intro nothing
      rw [Walk.run_ok (others met), Value.visitedAll, nothing]
      rfl
    cases v with
    | node n =>
      rw [Value.descendAll_node, Walk.run_ok (below n (List.mem_cons_self ..) met), Walk.run_ok (others _),
        Value.visitedAll, Value.visitedElement, List.append_assoc]
      rfl
    | _ => exact plain rfl

theorem slot_noted {kind : String} {f : Field} {s : Slot} (typed : s.Typed r f)
    (below : ∀ child ∈ s.children, ∀ met,
      (child.transform noting).run met = (.ok (.ofNode child), met ++ child.visited))
    (met : List Node) : (s.descend noting kind f).run met = (.ok s, met ++ s.visited) := by
  have unmet : ∀ s : Slot, (pure s : Walk (List Node) NodeError Slot).run met = (.ok s, met ++ []) := fun s =>
    congrArg (Prod.mk _) (List.append_nil met).symm
  cases s with
  | value v =>
    obtain ⟨fits, -⟩ := typed
    have sequence : ∀ form items, v = form items → (form items).items? = some items →
        (do
          let items ← Value.descendAll noting items
          Walk.ofAssign (f.refill kind form items) : Walk (List Node) NodeError Slot).run met =
            (.ok (.value v), met ++ Value.visitedAll items) := by
      intro form items same isItems
      subst same
      have held : ∀ n, .node n ∈ items → n ∈ (Slot.value (form items)).children := fun n inside =>
        Value.mem_children.mpr (.inr ⟨items, isItems, inside⟩)
      rw [Walk.run_ok (elements_noted (fun n inside => below n (held n inside)) met), Field.refill_same isItems fits]
      rfl
    cases v with
    | node n =>
      have installed : f.install kind (.ofNode n) = .ok (.value (.node n)) := Field.assign_value.mpr fits
      change (do
        let r ← n.transform noting
        Walk.ofAssign (f.install kind r) : Walk (List Node) NodeError Slot).run met = _
      rw [Walk.run_ok (below n (List.mem_singleton_self n) met), installed]
      rfl
    | list items => exact sequence .list items rfl rfl
    | tuple items => exact sequence .tuple items rfl rfl
    | _ => exact unmet _
  | _ => exact unmet _

theorem slots_noted (kind : String) {fs : List Field} {ss : List Slot} (typed : Slot.AllTyped r fs ss)
    (below : ∀ s ∈ ss, ∀ child ∈ s.children, ∀ met,
      (child.transform noting).run met = (.ok (.ofNode child), met ++ child.visited))
    (met : List Node) : (Slot.descendAll noting kind fs ss).run met = (.ok ss, met ++ Slot.visitedAll ss) := by
  induction fs generalizing ss met with
  | nil =>
    cases Slot.allTyped_nil typed
    exact congrArg (Prod.mk _) (List.append_nil met).symm
  | cons f fs ih =>
    obtain ⟨s, rest, rfl, first, others⟩ := Slot.allTyped_cons typed
    rw [List.forall_mem_cons] at below
    rw [Slot.descendAll_cons, Walk.run_ok (slot_noted first below.1 met), Walk.run_ok (ih others below.2 _),
      Slot.visitedAll, List.append_assoc]
    rfl

theorem Node.transform_noting (n : Node) : n.WellTyped r → ∀ met,
    (n.transform noting).run met = (.ok (.ofNode n), met ++ n.visited) := by
  induction n using children_induct with
  | step n ih =>
    intro typed met
    obtain ⟨schema, slots⟩ := n
    have children := slots_noted schema.kind typed.2 (fun s slot child inside => by
      have member : child ∈ (Node.mk schema slots).children := mem_children.mpr ⟨s, slot, inside⟩
      exact ih child member (child_typed typed member)) (met ++ [.mk schema slots])
    have entered : ((Node.mk schema slots).transform noting).run met = (do
        let slots ← Slot.descendAll noting schema.kind schema.fields slots
        return .ofNode (.mk schema slots) : Walk (List Node) NodeError Replacement).run
          (met ++ [.mk schema slots]) := rfl
    rw [entered, Walk.run_ok children, Node.visited, List.append_assoc]
    rfl

end Noting

-- The nodes in a sequence that is the value of a single field.
def Slot.aside (f : Field) : Slot → List Node
  | .value v => if f.cardinality.isSequence then [] else (v.items?.getD []).filterMap Value.node?
  | _ => []

def Node.aside (n : Node) : List Node := n.fields.flatMap fun field => field.2.aside field.1

section Aside

variable {r : Registry} {n child m : Node} {s : Slot} {f : Field}

theorem Slot.aside_repeated {v : Value} (repeated : f.cardinality.isSequence = true) : (value v).aside f = [] := by
  rw [aside, repeated, if_pos rfl]

theorem Slot.aside_single {v : Value} (single : f.cardinality.isSequence = false) :
    (value v).aside f = (v.items?.getD []).filterMap Value.node? := by
  rw [aside, single, if_neg Bool.false_ne_true]

theorem Slot.child_cases (typed : s.Typed r f) : child ∈ s.children ↔ child ∈ s.nested f ∨ child ∈ s.aside f := by
  cases s with
  | value v =>
    obtain ⟨fits, -⟩ := typed
    cases repeated : f.cardinality.isSequence with
    | true =>
      obtain ⟨items, found, -⟩ := Field.fits_repeated repeated fits
      rw [nested_items repeated, aside_repeated repeated]
      cases v <;> cases found <;> simp [children, Value.children, Value.items?]
    | false =>
      rw [nested_single repeated, aside_single repeated]
      cases v <;> simp [children, Value.children, Value.items?, Value.node?]
  | _ => simp [children, nested, aside]

theorem Node.child_cases (typed : n.WellTyped r) : child ∈ n.children ↔ child ∈ n.nested ∨ child ∈ n.aside := by
  obtain ⟨-, sized, slots⟩ := wellTyped_index.mp typed
  have each : ∀ field ∈ n.fields, field.2.Typed r field.1 := by
    intro field member
    obtain ⟨index, place⟩ := List.getElem?_of_mem member
    obtain ⟨isField, isSlot⟩ := List.getElem?_zip_eq_some.mp place
    exact slots index field.1 field.2 isField isSlot
  have paired : n.children = n.fields.flatMap fun field => field.2.children := by
    have lengths : n.slots.length ≤ n.schema.fields.length := Nat.le_of_eq sized
    calc n.children = (n.fields.map Prod.snd).flatMap Slot.children := by
          rw [children, fields, List.map_snd_zip lengths]
      _ = n.fields.flatMap fun field => field.2.children := List.flatMap_map ..
  rw [paired, nested, aside, List.mem_flatMap, List.mem_flatMap, List.mem_flatMap]
  constructor
  · rintro ⟨field, member, held⟩
    rcases (Slot.child_cases (each field member)).mp held with inside | inside
    · exact .inl ⟨field, member, inside⟩
    · exact .inr ⟨field, member, inside⟩
  · rintro (⟨field, member, held⟩ | ⟨field, member, held⟩)
    · exact ⟨field, member, (Slot.child_cases (each field member)).mpr (.inl held)⟩
    · exact ⟨field, member, (Slot.child_cases (each field member)).mpr (.inr held)⟩

end Aside

section Completed

variable {r : Registry} {n child m k : Node} {s : Slot} {f : Field}

theorem Slot.completed_nested (s : Slot) : (s.completed f).nested f = (s.nested f).map Node.completed := by
  cases s with
  | unset =>
    unfold completed Field.filler
    cases card : f.cardinality <;> simp [nested, card, Cardinality.isSequence, Value.items?]
  | explicitNone => rfl
  | value v =>
    change (value (v.completedIn f.cardinality.isSequence)).nested f = _
    cases repeated : f.cardinality.isSequence with
    | true =>
      have elements : ∀ items : List Value, (Value.completedAll items).filterMap Value.node? =
          (items.filterMap Value.node?).map Node.completed := by
        intro items
        rw [Value.completedAll_map, List.filterMap_map, List.map_filterMap]
        refine List.filterMap_congr fun v _ => ?_
        cases v <;> rfl
      rw [nested_items repeated, nested_items repeated]
      cases v with
      | list items => exact elements items
      | tuple items => exact elements items
      | _ => rfl
    | false =>
      rw [nested_single repeated, nested_single repeated]
      cases v <;> rfl

theorem Slot.completed_set (mandatory : f.cardinality.isMandatory = true → s.isUnset = false)
    (known : ∀ tag, f.cardinality = .unknown tag → s.isUnset = false) : (s.completed f).isUnset = false := by
  cases s with
  | unset =>
    change f.filler.isUnset = false
    unfold Field.filler
    cases card : f.cardinality with
    | unknown tag => exact known tag card
    | required => exact mandatory (by rw [card]; rfl)
    | oneOrMore => exact mandatory (by rw [card]; rfl)
    | _ => rfl
  | _ => rfl

theorem Slot.completedAll_zip {fs : List Field} {ss : List Slot} (sized : ss.length ≤ fs.length) :
    completedAll fs ss = (fs.zip ss).map fun field => field.2.completed field.1 := by
  induction ss generalizing fs with
  | nil => cases fs <;> rfl
  | cons s ss ih =>
    cases fs with
    | nil => cases sized
    | cons f fs => rw [completedAll, ih (Nat.le_of_succ_le_succ sized), List.zip_cons_cons, List.map_cons]

theorem Slot.completed_aside (s : Slot) : (s.completed f).aside f = s.aside f := by
  cases s with
  | unset =>
    unfold completed Field.filler
    cases card : f.cardinality <;> simp [aside, card, Cardinality.isSequence]
  | explicitNone => rfl
  | value v =>
    change (value (v.completedIn f.cardinality.isSequence)).aside f = _
    cases repeated : f.cardinality.isSequence with
    | true => rw [aside_repeated repeated, aside_repeated repeated]
    | false =>
      rw [aside_single repeated, aside_single repeated]
      cases v <;> rfl

namespace Node

theorem completed_fields (n : Node) :
    n.completed.fields = n.fields.map fun field => (field.1, field.2.completed field.1) := by
  have zipped : ∀ (fs : List Field) (ss : List Slot), fs.zip (Slot.completedAll fs ss) =
      (fs.zip ss).map fun field => (field.1, field.2.completed field.1) := by
    intro fs
    induction fs with
    | nil => exact fun _ => rfl
    | cons f fs ih =>
      intro ss
      cases ss with
      | nil => rfl
      | cons s ss => rw [Slot.completedAll, List.zip_cons_cons, ih, List.zip_cons_cons, List.map_cons]
  obtain ⟨schema, slots⟩ := n
  exact zipped schema.fields slots

theorem completed_nested (n : Node) : n.completed.nested = n.nested.map completed := by
  simp only [nested, completed_fields, List.flatMap_map, List.map_flatMap, Slot.completed_nested]

theorem completed_aside (n : Node) : n.completed.aside = n.aside := by
  simp only [aside, completed_fields, List.flatMap_map, Slot.completed_aside]

theorem Covers.trans (first : n.Covers k) (second : k.Covers m) : n.Covers m := by
  induction first with
  | self => exact second
  | inside nested _ ih => exact .inside nested (ih second)

theorem Covers.complete (covers : n.Covers k) (complete : n.Complete) : k.Complete := fun m further =>
  complete m (covers.trans further)

theorem Covers.typed (covers : n.Covers k) (typed : n.WellTyped r) : k.WellTyped r := by
  induction covers with
  | self => exact typed
  | inside nested _ ih => exact ih (child_typed typed (nested_child nested))

theorem completed_covers : n.completed.Covers m ↔ ∃ k, n.Covers k ∧ m = k.completed := by
  constructor
  · intro covers
    generalize same : n.completed = a at covers
    induction covers generalizing n with
    | self => exact ⟨n, .self n, same.symm⟩
    | inside nested _ ih =>
      rw [← same, completed_nested] at nested
      obtain ⟨child, inside, shape⟩ := List.mem_map.mp nested
      obtain ⟨k, covers, rfl⟩ := ih shape
      exact ⟨k, .inside inside covers, rfl⟩
  · rintro ⟨k, covers, rfl⟩
    induction covers with
    | self n => exact .self n.completed
    | inside nested _ ih => exact .inside (completed_nested _ ▸ List.mem_map_of_mem nested) ih

-- Nothing is unset, and to complete it again does nothing and succeeds.
structure Finalized (n : Node) : Prop where
  set : ∀ s ∈ n.slots, s.isUnset = false
  again : n.finalize = (n, .ok ())

theorem Complete.finalized (complete : n.Complete) (sized : n.Sized) : n.completed.Finalized where
  set s member := by
    obtain ⟨mandatory, known⟩ := complete n (.self n)
    obtain ⟨schema, slots⟩ := n
    have shape : (Node.mk schema slots).completed.slots = _ := Slot.completedAll_zip (Nat.le_of_eq sized)
    rw [shape] at member
    obtain ⟨field, inside, rfl⟩ := List.mem_map.mp member
    exact Slot.completed_set (mandatory field inside) (known field inside)
  again := by
    have again := n.finalize_again
    rwa [complete.finalize] at again

theorem Complete.completed_typed (complete : n.Complete) (typed : n.WellTyped r) : n.completed.WellTyped r := by
  have after := n.finalize_typed typed
  rwa [complete.finalize] at after

-- In the completed tree a walk meets what completion came to, and below that what it passed over, as it was.
theorem completed_visited (n : Node) : n.WellTyped r → n.Complete → ∀ m, m ∈ n.completed.visited ↔
    (∃ k, n.Covers k ∧ m = k.completed) ∨ ∃ k, n.Covers k ∧ ∃ child ∈ k.aside, m ∈ child.visited := by
  induction n using children_induct with
  | step n ih =>
    intro typed complete m
    have below : ∀ child ∈ n.nested, ∀ m, m ∈ child.completed.visited ↔ _ := fun child inside =>
      ih child (nested_child inside) (child_typed typed (nested_child inside))
        (Covers.complete (.inside inside (.self child)) complete)
    have children : ∀ c, c ∈ n.completed.children ↔ (∃ child ∈ n.nested, child.completed = c) ∨ c ∈ n.aside := by
      intro c
      rw [child_cases (complete.completed_typed typed), completed_nested, completed_aside, List.mem_map]
    rw [mem_visited]
    constructor
    · rintro (rfl | ⟨c, inside, met⟩)
      · exact .inl ⟨n, .self n, rfl⟩
      · rcases (children c).mp inside with ⟨child, nested, rfl⟩ | passed
        · rcases (below child nested m).mp met with ⟨k, covers, same⟩ | ⟨k, covers, rest⟩
          · exact .inl ⟨k, .inside nested covers, same⟩
          · exact .inr ⟨k, .inside nested covers, rest⟩
        · exact .inr ⟨n, .self n, c, passed, met⟩
    · rintro (⟨k, covers, rfl⟩ | ⟨k, covers, child, passed, met⟩)
      · cases covers with
        | self => exact .inl rfl
        | @inside _ child _ nested covers =>
          exact .inr ⟨child.completed, (children _).mpr (.inl ⟨child, nested, rfl⟩),
            (below child nested _).mpr (.inl ⟨k, covers, rfl⟩)⟩
      · cases covers with
        | self => exact .inr ⟨child, (children _).mpr (.inr passed), met⟩
        | @inside _ first _ nested covers =>
          exact .inr ⟨first.completed, (children _).mpr (.inl ⟨first, nested, rfl⟩),
            (below first nested _).mpr (.inr ⟨k, covers, child, passed, met⟩)⟩

theorem aside_plain (plain : r.Plain) (typed : n.WellTyped r) : n.aside = [] := by
  refine List.flatMap_eq_nil_iff.mpr fun field member => ?_
  obtain ⟨f, s⟩ := field
  obtain ⟨index, place⟩ := List.getElem?_of_mem member
  obtain ⟨isField, isSlot⟩ := List.getElem?_zip_eq_some.mp place
  have ofField := plain n.schema typed.member f (List.mem_of_getElem? isField)
  have ofSlot := (wellTyped_index.mp typed).2.2 index f s isField isSlot
  cases s with
  | value v =>
    cases repeated : f.cardinality.isSequence with
    | true => exact Slot.aside_repeated repeated
    | false =>
      have accepted := ((Field.fits_single repeated ofField.known).mp ofSlot.1).2
      have flat : v.items? = none := ElementType.accepts_flat ofField.flat accepted
      change (Slot.value v).aside f = []
      rw [Slot.aside_single repeated, flat]
      rfl
  | _ => rfl

-- A tree that was completed: both walks meet the nodes that are visited, of which those that completion comes to are
-- finalized, and the others as far as they were. Over plain fields there are no others.
theorem finalize_reaches (typed : n.WellTyped r) (ok : n.finalize.2 = .ok ()) :
    n.finalize.1.surveyed = n.finalize.1.visited ∧
    (∀ met, (n.finalize.1.transform noting).run met = (.ok (.ofNode n.finalize.1), met ++ n.finalize.1.visited)) ∧
    (∀ m, n.finalize.1.Covers m → m.Finalized) ∧
    ((∀ m ∈ n.finalize.1.visited, m.Finalized) ↔
      ∀ k, n.Covers k → ∀ child ∈ k.aside, ∀ m ∈ child.visited, m.Finalized) ∧
    (r.Plain → ∀ m ∈ n.finalize.1.visited, m.Finalized) := by
  have complete := n.finalize_completes.mp ok
  have covered : ∀ k, n.Covers k → k.completed.Finalized := fun k covers =>
    (covers.complete complete).finalized (covers.typed typed).sized
  have exactly : (∀ m ∈ n.finalize.1.visited, m.Finalized) ↔
      ∀ k, n.Covers k → ∀ child ∈ k.aside, ∀ m ∈ child.visited, m.Finalized := by
    rw [complete.finalize]
    constructor
    · exact fun all k covers child passed m met =>
        all m ((n.completed_visited typed complete m).mpr (.inr ⟨k, covers, child, passed, met⟩))
    · intro all m met
      rcases (n.completed_visited typed complete m).mp met with ⟨k, covers, rfl⟩ | ⟨k, covers, child, passed, inside⟩
      · exact covered k covers
      · exact all k covers child passed m inside
  refine ⟨surveyed_visited _, transform_noting _ (n.finalize_typed typed), fun m covers => ?_, exactly, fun plain => ?_⟩
  · rw [complete.finalize] at covers
    obtain ⟨k, before, rfl⟩ := completed_covers.mp covers
    exact covered k before
  · refine exactly.mpr fun k covers child passed => ?_
    rw [aside_plain plain (covers.typed typed)] at passed
    cases passed

end Node

end Completed

namespace Node

-- A box holds a leaf, and a list of leaves in each of two fields that are for no sequence.
def boxes : SchemaTable :=
  ⟨[⟨"Leaf", none, [⟨"n", "int", "required"⟩]⟩,
    ⟨"Box", none, [⟨"first", "Leaf", "required"⟩, ⟨"content", "object", "required"⟩,
      ⟨"others", "Leaf", "sometimes"⟩]⟩]⟩

def leaf : Schema := ⟨"Leaf", none, [⟨"n", .int, .required⟩], 0, 0⟩

def box : Schema :=
  ⟨"Box", none, [⟨"first", .kind "Leaf", .required⟩, ⟨"content", .object, .required⟩,
    ⟨"others", .kind "Leaf", .unknown "sometimes"⟩], 0, 0⟩

def boxed (content others : Node) : Node :=
  .mk box [.value (.node (.mk leaf [.value (.int 3)])), .value (.list [.node content]),
    .value (.list [.node others])]

def counted : Node := .mk leaf [.value (.int 5)]

-- With leaves that are complete beforehand, all that the walks meet is finalized.
theorem boxed_reached : Registry.ofTable 0 boxes = .ok ⟨0, [leaf, box]⟩ ∧
    (boxed counted counted).WellTyped ⟨0, [leaf, box]⟩ ∧ (boxed counted counted).finalize.2 = .ok () ∧
    (∀ m, (boxed counted counted).finalize.1.Covers m → m.Finalized) ∧
    ∀ m ∈ (boxed counted counted).finalize.1.surveyed, m.Finalized := by
  have typed : (boxed counted counted).WellTyped ⟨0, [leaf, box]⟩ := by decide
  have ok : (boxed counted counted).finalize.2 = .ok () := rfl
  obtain ⟨surveyed, -, covered, exactly, -⟩ := finalize_reaches typed ok
  have passed : ∀ k, (boxed counted counted).Covers k → ∀ child ∈ k.aside, child = counted := by
    intro k covers child inside
    cases covers with
    | self => exact (List.mem_pair.mp (show child ∈ [counted, counted] from inside)).elim id id
    | inside nested covers =>
      obtain rfl := List.mem_singleton.mp nested
      cases covers with
      | self => cases inside
      | inside deeper => cases deeper
  refine ⟨rfl, typed, ok, covered, ?_⟩
  rw [surveyed]
  refine exactly.mpr fun k covers child inside m met => ?_
  obtain rfl := passed k covers child inside
  obtain rfl := List.mem_singleton.mp met
  exact ⟨fun s member => List.mem_singleton.mp member ▸ rfl, rfl⟩

-- Otherwise completion succeeds and the walks come to leaves that are not complete.
theorem boxed_overlooked : Registry.ofTable 0 boxes = .ok ⟨0, [leaf, box]⟩ ∧
    (boxed (.empty leaf) (.empty leaf)).WellTyped ⟨0, [leaf, box]⟩ ∧
    (boxed (.empty leaf) (.empty leaf)).finalize.2 = .ok () ∧
    (boxed (.empty leaf) (.empty leaf)).finalize.1.surveyed =
      [boxed (.empty leaf) (.empty leaf), .mk leaf [.value (.int 3)], .empty leaf, .empty leaf] ∧
    (empty leaf).finalize.2 = .error (.incomplete "Leaf" ["n"]) ∧
    (∃ s ∈ (empty leaf).slots, s.isUnset = true) :=
  ⟨rfl, by decide, rfl, rfl, rfl, .unset, List.mem_singleton_self _, rfl⟩

end Node

end TreeLowering
