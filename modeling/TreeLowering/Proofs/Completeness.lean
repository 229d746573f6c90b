import TreeLowering.Proofs.Missing

namespace TreeLowering

-- The nodes of a field that are completed along with the node that has it.
def Slot.nested (f : Field) : Slot → List Node
  | .value v => if f.cardinality.isSequence then (v.items?.getD []).filterMap Value.node? else v.node?.toList
  | _ => []

def Node.nested (n : Node) : List Node := n.fields.flatMap fun field => field.2.nested field.1

-- What is nested at any depth, and the node itself.
inductive Node.Covers : Node → Node → Prop where
  | self (n : Node) : Covers n n
  | inside {n child m : Node} (nested : child ∈ n.nested) (covers : child.Covers m) : Covers n m

structure Node.Supplied (n : Node) : Prop where
  mandatory : ∀ field ∈ n.fields, field.1.cardinality.isMandatory = true → field.2.isUnset = false
  known : ∀ field ∈ n.fields, ∀ tag, field.1.cardinality = .unknown tag → field.2.isUnset = false

def Node.Complete (n : Node) : Prop := ∀ m, n.Covers m → m.Supplied

-- A field that does not stop completion, whether it is missing or not.
structure Slot.Passes (f : Field) (s : Slot) : Prop where
  known : s.isUnset = true → ∀ tag, f.cardinality ≠ .unknown tag
  nested : ∀ child ∈ s.nested f, child.Complete

-- The error of a node that is not complete: that of the first field that is of an unknown cardinality and unset
-- or has a node that is not complete, and where there is no such field, one with the names that the node misses.
inductive Node.Fails : Node → NodeError → Prop where
  | unknown {n : Node} {before after : List (Field × Slot)} {f : Field} {tag : String}
      (fields : n.fields = before ++ (f, .unset) :: after) (passed : ∀ field ∈ before, field.2.Passes field.1)
      (cardinality : f.cardinality = .unknown tag) : Fails n (.unknownModifier n.kind f.name tag)
  | nested {n child : Node} {before after : List (Field × Slot)} {f : Field} {s : Slot} {earlier later : List Node}
      {e : NodeError} (fields : n.fields = before ++ (f, s) :: after)
      (passed : ∀ field ∈ before, field.2.Passes field.1) (nodes : s.nested f = earlier ++ child :: later)
      (complete : ∀ node ∈ earlier, node.Complete) (fails : child.Fails e) : Fails n e
  | missing {n : Node} (passed : ∀ field ∈ n.fields, field.2.Passes field.1) (missing : n.missing ≠ []) :
      Fails n (.incomplete n.kind n.missing)

def Field.filler (f : Field) : Slot :=
  match f.cardinality with
  | .optional => .explicitNone
  | .zeroOrMore => .value (.tuple [])
  | _ => .unset

mutual
-- The tree with everything filled in that may be left out, down to the nodes that completion goes to.
def Node.completed : Node → Node
  | .mk schema slots => .mk schema (Slot.completedAll schema.fields slots)
termination_by structural n => n

def Slot.completedAll : List Field → List Slot → List Slot
  | f :: fs, s :: ss => s.completed f :: Slot.completedAll fs ss
  | _, ss => ss
termination_by structural _ ss => ss

def Slot.completed (f : Field) : Slot → Slot
  | .unset => f.filler
  | .explicitNone => .explicitNone
  | .value v => .value (v.completedIn f.cardinality.isSequence)
termination_by structural s => s

-- The sequence of a repeated field becomes a tuple; one in another field is not looked into.
def Value.completedIn (sequence : Bool) : Value → Value
  | .list items => if sequence then .tuple (Value.completedAll items) else .list items
  | .tuple items => if sequence then .tuple (Value.completedAll items) else .tuple items
  | .node n => if sequence then .node n else .node n.completed
  | v => v
termination_by structural v => v

def Value.completedAll : List Value → List Value
  | [] => []
  | v :: rest => v.completedIn false :: Value.completedAll rest
termination_by structural vs => vs
end

theorem Value.completedAll_map (items : List Value) : completedAll items = items.map (completedIn false) := by
  induction items with
  | nil => rfl
  | cons v rest ih => rw [completedAll, ih, List.map_cons]

section Nested

variable {n child m : Node} {s : Slot} {f : Field}

theorem Slot.nested_single {v : Value} (single : f.cardinality.isSequence = false) :
    (value v).nested f = v.node?.toList := by
  rw [nested, single, if_neg Bool.false_ne_true]

theorem Slot.nested_items {v : Value} (repeated : f.cardinality.isSequence = true) :
    (value v).nested f = (v.items?.getD []).filterMap Value.node? := by
  rw [nested, repeated, if_pos rfl]

theorem Slot.nested_child (member : child ∈ s.nested f) : child ∈ s.children := by
  cases s with
  | value v =>
    refine Value.mem_children.mpr ?_
    cases repeated : f.cardinality.isSequence with
    | true =>
      rw [nested_items repeated] at member
      obtain ⟨w, inside, isNode⟩ := List.mem_filterMap.mp member
      cases w <;> cases isNode
      cases found : v.items? with
      | none =>
        rw [found] at inside
        cases inside
      | some items =>
        rw [found] at inside
        exact .inr ⟨items, rfl, inside⟩
    | false =>
      rw [nested_single repeated, Option.mem_toList] at member
      cases v <;> cases member
      exact .inl rfl
  | _ => cases member

theorem Node.mem_nested : child ∈ n.nested ↔ ∃ field ∈ n.fields, child ∈ field.2.nested field.1 := List.mem_flatMap

theorem Node.nested_child (member : child ∈ n.nested) : child ∈ n.children := by
  obtain ⟨field, inside, held⟩ := mem_nested.mp member
  exact mem_children.mpr ⟨field.2, (List.of_mem_zip inside).2, Slot.nested_child held⟩

theorem Node.complete_iff : n.Complete ↔ n.Supplied ∧ ∀ child ∈ n.nested, child.Complete := by
  constructor
  · exact fun complete => ⟨complete n (.self n), fun child nested m covers => complete m (.inside nested covers)⟩
  · intro both m covers
    cases covers with
    | self => exact both.1
    | inside nested covers => exact both.2 _ nested m covers

theorem Node.complete_passes : n.Complete ↔ n.missing = [] ∧ ∀ field ∈ n.fields, field.2.Passes field.1 := by
  have names : ∀ (f : Field) (s : Slot), s.missing f = [] ↔ (f.cardinality.isMandatory = true → s.isUnset = false) := by
    intro f s
    unfold Slot.missing
    cases f.cardinality.isMandatory <;> cases s.isUnset <;> simp
  rw [complete_iff, missing, List.flatMap_eq_nil_iff]
  constructor
  · rintro ⟨supplied, below⟩
    refine ⟨fun field member => (names field.1 field.2).mpr (supplied.mandatory field member), ?_⟩
    refine fun field member => ⟨?_, ?_⟩
    · intro unset tag unknown
      rw [supplied.known field member tag unknown] at unset
      cases unset
    · exact fun child inside => below child (mem_nested.mpr ⟨field, member, inside⟩)
  · rintro ⟨whole, passes⟩
    refine ⟨⟨fun field member => (names field.1 field.2).mp (whole field member), ?_⟩, fun child inside => ?_⟩
    · intro field member tag unknown
      exact Bool.eq_false_iff.mpr fun unset => (passes field member).known unset tag unknown
    · obtain ⟨field, member, held⟩ := mem_nested.mp inside
      exact (passes field member).nested child held

end Nested

def Node.failure? (n : Node) : Option NodeError :=
  match n.finalize.2 with
  | .error e => some e
  | .ok _ => none

def Slot.stop? (kind : String) (f : Field) (s : Slot) : Option NodeError :=
  match s, f.cardinality with
  | .unset, .unknown tag => some (.unknownModifier kind f.name tag)
  | _, _ => (s.nested f).findSome? Node.failure?

section Stop

variable {n : Node} {s : Slot} {f : Field} {e : NodeError} {kind : String}

theorem Node.failure_none : n.failure? = none ↔ n.finalize.2 = .ok () := by
  unfold failure?
  split <;> simp_all

theorem Node.failure_some : n.failure? = some e ↔ n.finalize.2 = .error e := by
  unfold failure?
  split <;> simp_all

theorem Value.finalizeAll_outcome (items : List Value) : (finalizeAll items).2 =
    ((items.filterMap node?).findSome? Node.failure?).elim (.ok ()) .error := by
  induction items with
  | nil => rfl
  | cons v rest ih =>
    rw [finalizeAll_cons]
    cases v with
    | node n =>
      have shape : (node n).finalizeElement = (.node n.finalize.1, n.finalize.2) := rfl
      rw [shape, show (node n :: rest).filterMap node? = n :: rest.filterMap node? from rfl, List.findSome?_cons,
        Node.failure?]
      cases n.finalize.2 with
      | error e => rfl
      | ok _ => exact ih
    | _ => exact ih

theorem Slot.finalize_outcome (kind : String) (f : Field) (s : Slot) :
    (s.finalize kind f).2 = (s.stop? kind f).elim (.ok (s.missing f)) .error := by
  cases s with
  | unset =>
    unfold finalize stop? missing
    cases f.cardinality <;> rfl
  | explicitNone =>
    rw [missing_set rfl]
    rfl
  | value v =>
    have lift : ∀ found : Option NodeError,
        ((found.elim (.ok ()) .error : Except NodeError Unit).map fun _ => ([] : List String)) =
          found.elim (.ok []) .error := by
      intro found
      cases found <;> rfl
    change (v.finalizeIn f.cardinality.isSequence).2.map _ = ((nested f (.value v)).findSome? _).elim _ _
    rw [missing_set rfl, ← lift, nested]
    congr 1
    cases f.cardinality.isSequence with
    | true =>
      cases v with
      | list items => exact Value.finalizeAll_outcome items
      | tuple items => exact Value.finalizeAll_outcome items
      | _ => rfl
    | false =>
      cases v with
      | node n =>
        change n.finalize.2 = (List.findSome? Node.failure? [n]).elim _ _
        rw [List.findSome?_singleton, Node.failure?]
        cases n.finalize.2 <;> rfl
      | _ => rfl

theorem Slot.finalizeAll_unstopped {fs : List Field} {ss : List Slot} (unstopped : s.stop? kind f = none) :
    finalizeAll kind (f :: fs) (s :: ss) =
      ((s.finalize kind f).1 :: (finalizeAll kind fs ss).1, (finalizeAll kind fs ss).2.map (s.missing f ++ ·)) := by
  have own := s.finalize_outcome kind f
  rw [unstopped] at own
  rw [finalizeAll_cons]
  generalize s.finalize kind f = done at own
  obtain ⟨after, outcome⟩ := done
  cases own
  rfl

theorem Slot.finalizeAll_stopped {fs : List Field} {ss : List Slot} (stops : s.stop? kind f = some e) :
    finalizeAll kind (f :: fs) (s :: ss) = ((s.finalize kind f).1 :: ss, .error e) := by
  have own := s.finalize_outcome kind f
  rw [stops] at own
  rw [finalizeAll_cons]
  generalize s.finalize kind f = done at own
  obtain ⟨after, outcome⟩ := done
  cases own
  rfl

theorem Slot.finalizeAll_outcome (fs : List Field) (ss : List Slot) : (finalizeAll kind fs ss).2 =
    ((fs.zip ss).findSome? fun field => field.2.stop? kind field.1).elim
      (.ok ((fs.zip ss).flatMap fun field => field.2.missing field.1)) .error := by
  induction fs generalizing ss with
  | nil => rw [finalizeAll_short (.inl rfl)]; rfl
  | cons f fs ih =>
    cases ss with
    | nil => rw [finalizeAll_short (.inr rfl)]; rfl
    | cons s ss =>
      rw [List.zip_cons_cons, List.findSome?_cons, List.flatMap_cons]
      cases stops : s.stop? kind f with
      | some e =>
        rw [finalizeAll_stopped stops]
        rfl
      | none =>
        rw [finalizeAll_unstopped stops, ih]
        cases (fs.zip ss).findSome? _ <;> rfl

theorem Node.finalize_stops : n.finalize.2 =
    match n.fields.findSome? fun field => field.2.stop? n.kind field.1 with
    | some e => .error e
    | none => if n.missing = [] then .ok () else .error (.incomplete n.kind n.missing) := by
  rw [finalize_outcome, Slot.finalizeAll_outcome, ← fields, ← missing]
  cases n.fields.findSome? _ with
  | some e => rfl
  | none =>
    cases n.missing with
    | nil => rfl
    | cons name rest => rfl

theorem Slot.stop_none : s.stop? kind f = none ↔
    (s.isUnset = true → ∀ tag, f.cardinality ≠ .unknown tag) ∧ ∀ child ∈ s.nested f, child.finalize.2 = .ok () := by
  have below : (s.nested f).findSome? Node.failure? = none ↔ ∀ child ∈ s.nested f, child.finalize.2 = .ok () := by
    simp only [List.findSome?_eq_none_iff, Node.failure_none]
  rw [← below]
  cases s with
  | unset =>
    unfold stop?
    cases f.cardinality <;> simp [isUnset]
  | _ => simp [stop?, isUnset]

theorem Node.finalize_completes (n : Node) : n.finalize.2 = .ok () ↔ n.Complete := by
  induction n using Node.children_induct with
  | step n ih =>
    have passes : ∀ field ∈ n.fields, field.2.stop? n.kind field.1 = none ↔ field.2.Passes field.1 := by
      intro field member
      have below : ∀ child ∈ field.2.nested field.1, (child.finalize.2 = .ok () ↔ child.Complete) := fun child inside =>
        ih child (nested_child (mem_nested.mpr ⟨field, member, inside⟩))
      rw [Slot.stop_none]
      exact ⟨fun ⟨known, all⟩ => ⟨known, fun child inside => (below child inside).mp (all child inside)⟩,
        fun ⟨known, all⟩ => ⟨known, fun child inside => (below child inside).mpr (all child inside)⟩⟩
    have clear : (n.fields.findSome? fun field => field.2.stop? n.kind field.1) = none ↔
        ∀ field ∈ n.fields, field.2.Passes field.1 := by
      rw [List.findSome?_eq_none_iff]
      exact forall₂_congr passes
    rw [complete_passes, ← clear, finalize_stops]
    cases n.fields.findSome? _ with
    | some e => simp
    | none => cases n.missing <;> simp

theorem Slot.stop_passes : s.stop? kind f = none ↔ s.Passes f := by
  rw [stop_none]
  exact ⟨fun ⟨known, all⟩ => ⟨known, fun child inside => child.finalize_completes.mp (all child inside)⟩,
    fun ⟨known, all⟩ => ⟨known, fun child inside => child.finalize_completes.mpr (all child inside)⟩⟩

theorem Node.passes_all : (n.fields.findSome? fun field => field.2.stop? n.kind field.1) = none ↔
    ∀ field ∈ n.fields, field.2.Passes field.1 := by
  rw [List.findSome?_eq_none_iff]
  exact forall₂_congr fun _ _ => Slot.stop_passes

theorem Slot.stop_some (stops : s.stop? kind f = some e) :
    (s = .unset ∧ ∃ tag, f.cardinality = .unknown tag ∧ e = .unknownModifier kind f.name tag) ∨
    ∃ earlier child later, s.nested f = earlier ++ child :: later ∧ (∀ node ∈ earlier, node.Complete) ∧
      child.finalize.2 = .error e := by
  unfold stop? at stops
  split at stops
  · next tag unknown =>
    cases stops
    exact .inl ⟨rfl, tag, unknown, rfl⟩
  · obtain ⟨earlier, child, later, split, failed, before⟩ := List.findSome?_eq_some_iff.mp stops
    refine .inr ⟨earlier, child, later, split, fun node inside => ?_, Node.failure_some.mp failed⟩
    exact node.finalize_completes.mp (Node.failure_none.mp (before node inside))

theorem Slot.stop_nested {earlier later : List Node} {child : Node} (nodes : s.nested f = earlier ++ child :: later)
    (complete : ∀ node ∈ earlier, node.Complete) (failed : child.finalize.2 = .error e) :
    s.stop? kind f = some e := by
  have found : (s.nested f).findSome? Node.failure? = some e :=
    List.findSome?_eq_some_iff.mpr ⟨earlier, child, later, nodes, Node.failure_some.mpr failed, fun node inside =>
      Node.failure_none.mpr (node.finalize_completes.mpr (complete node inside))⟩
  cases s with
  | value v => exact found
  | unset => cases found
  | explicitNone => cases found

theorem Node.stops_at {before after : List (Field × Slot)} (fields : n.fields = before ++ (f, s) :: after)
    (passed : ∀ field ∈ before, field.2.Passes field.1) (stops : s.stop? n.kind f = some e) :
    n.finalize.2 = .error e := by
  have first : (n.fields.findSome? fun field => field.2.stop? n.kind field.1) = some e :=
    List.findSome?_eq_some_iff.mpr ⟨before, (f, s), after, fields, stops, fun field member =>
      Slot.stop_passes.mpr (passed field member)⟩
  rw [finalize_stops, first]

theorem Node.finalize_fails (n : Node) : ∀ e, n.finalize.2 = .error e ↔ n.Fails e := by
  have reported : ∀ {n : Node} {e}, n.Fails e → n.finalize.2 = .error e := by
    intro n e fails
    induction fails with
    | unknown fields passed cardinality =>
      refine stops_at fields passed ?_
      unfold Slot.stop?
      rw [cardinality]
    | nested fields passed nodes complete _ ih => exact stops_at fields passed (Slot.stop_nested nodes complete ih)
    | missing passed missing =>
      rw [finalize_stops, passes_all.mpr passed]
      exact if_neg missing
  induction n using Node.children_induct with
  | step n ih =>
    refine fun e => ⟨fun failed => ?_, reported⟩
    rw [finalize_stops] at failed
    split at failed
    · next stopped =>
      cases failed
      obtain ⟨before, ⟨f, s⟩, after, fields, stops, earlier⟩ := List.findSome?_eq_some_iff.mp stopped
      have passed : ∀ field ∈ before, field.2.Passes field.1 := fun field member =>
        Slot.stop_passes.mp (earlier field member)
      rcases Slot.stop_some stops with ⟨rfl, tag, unknown, rfl⟩ | ⟨first, child, later, nodes, complete, broken⟩
      · exact .unknown fields passed unknown
      · have inside : child ∈ n.nested :=
          mem_nested.mpr ⟨(f, s), by simp [fields], by simp [nodes]⟩
        exact .nested fields passed nodes complete ((ih child (nested_child inside) e).mp broken)
    · next unstopped =>
      split at failed
      · cases failed
      · next misses =>
        cases failed
        exact .missing (passes_all.mp unstopped) misses

end Stop

section Completed

variable {n : Node} {s : Slot} {f : Field} {kind : String}

theorem Slot.finalize_completed (kind : String)
    (below : ∀ child ∈ s.nested f, child.finalize = (child.completed, .ok ())) :
    (s.finalize kind f).1 = s.completed f := by
  cases s with
  | unset =>
    unfold finalize completed Field.filler
    cases f.cardinality <;> rfl
  | explicitNone => rfl
  | value v =>
    change Slot.value (v.finalizeIn _).1 = .value (v.completedIn _)
    congr 1
    cases repeated : f.cardinality.isSequence with
    | false =>
      rw [nested_single repeated] at below
      cases v with
      | node n =>
        change Value.node n.finalize.1 = .node n.completed
        rw [below n (List.mem_singleton_self n)]
      | _ => rfl
    | true =>
      rw [nested_items repeated] at below
      have elements : ∀ items, v.items? = some items → (Value.finalizeAll items).1 = Value.completedAll items := by
        intro items found
        rw [found, Option.getD_some] at below
        have whole : (Value.finalizeAll items).2 = .ok () := by
          rw [Value.finalizeAll_outcome, List.findSome?_eq_none_iff.mpr fun child inside =>
            Node.failure_none.mpr (congrArg Prod.snd (below child inside))]
          rfl
        rw [(Value.finalizeAll_ok whole).1, Value.completedAll_map]
        refine List.map_congr_left fun v member => ?_
        cases v with
        | node n =>
          change Value.node n.finalize.1 = .node n.completed
          rw [below n (List.mem_filterMap.mpr ⟨_, member, rfl⟩)]
        | _ => rfl
      cases v with
      | list items => exact congrArg Value.tuple (elements items rfl)
      | tuple items => exact congrArg Value.tuple (elements items rfl)
      | _ => rfl

theorem Slot.finalizeAll_completed {fs : List Field} {ss : List Slot}
    (unstopped : ∀ field ∈ fs.zip ss, field.2.stop? kind field.1 = none)
    (below : ∀ field ∈ fs.zip ss, ∀ child ∈ field.2.nested field.1, child.finalize = (child.completed, .ok ())) :
    (finalizeAll kind fs ss).1 = completedAll fs ss := by
  induction fs generalizing ss with
  | nil =>
    rw [finalizeAll_short (.inl rfl)]
    cases ss <;> rfl
  | cons f fs ih =>
    cases ss with
    | nil => rfl
    | cons s ss =>
      rw [List.zip_cons_cons, List.forall_mem_cons] at unstopped below
      rw [finalizeAll_unstopped unstopped.1, completedAll, ← finalize_completed kind below.1,
        ih unstopped.2 below.2]

theorem Node.finalize_completed (n : Node) : n.Complete → n.finalize.1 = n.completed := by
  induction n using Node.children_induct with
  | step n ih =>
    intro complete
    obtain ⟨-, passes⟩ := complete_passes.mp complete
    have shape : n.completed = .mk n.schema (Slot.completedAll n.schema.fields n.slots) := by
      cases n
      rfl
    rw [finalize_slots, shape]
    congr 1
    refine Slot.finalizeAll_completed (fun field member => Slot.stop_passes.mpr (passes field member)) ?_
    intro field member child inside
    have whole := (passes field member).nested child inside
    have part := nested_child (mem_nested.mpr ⟨field, member, inside⟩)
    exact Prod.ext (ih child part whole) (child.finalize_completes.mpr whole)

theorem Node.Complete.finalize {n : Node} (complete : n.Complete) : n.finalize = (n.completed, .ok ()) :=
  Prod.ext (n.finalize_completed complete) (n.finalize_completes.mpr complete)

-- Completion in full, of any node over any table: when it succeeds, what it gives then, and what it reports otherwise.
theorem Node.finalize_decides (n : Node) :
    (n.finalize.2 = .ok () ↔ n.Complete) ∧
    (n.finalize = (n.completed, .ok ()) ↔ n.Complete) ∧
    ∀ e, n.finalize.2 = .error e ↔ n.Fails e :=
  ⟨n.finalize_completes, ⟨fun done => n.finalize_completes.mp (congrArg Prod.snd done), Complete.finalize⟩,
    n.finalize_fails⟩

end Completed

end TreeLowering
