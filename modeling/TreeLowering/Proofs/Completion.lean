import TreeLowering.Proofs.WellTyped
import TreeLowering.Proofs.Visited
import TreeLowering.Tree.Finalize

namespace TreeLowering

namespace Value

-- Only the nodes among the elements of a sequence are completed.
def finalizeElement : Value → Value × Except NodeError Unit
  | .node n => (.node n.finalize.1, n.finalize.2)
  | v => (v, .ok ())

theorem finalizeAll_cons (v : Value) (rest : List Value) : finalizeAll (v :: rest) =
    match v.finalizeElement with
    | (v, .error e) => (v :: rest, .error e)
    | (v, .ok ()) => (v :: (finalizeAll rest).1, (finalizeAll rest).2) := by
  cases v with
  | node n =>
    have shape : (node n).finalizeElement = (.node n.finalize.1, n.finalize.2) := rfl
    rw [finalizeAll, shape]
    cases n.finalize with
    | mk n outcome => cases outcome <;> rfl
  | _ => rfl

theorem finalizeAll_mem {items : List Value} {after : Value} (member : after ∈ (finalizeAll items).1) :
    ∃ v ∈ items, after = v ∨ after = v.finalizeElement.1 := by
  induction items with
  | nil => cases member
  | cons v rest ih =>
    rw [finalizeAll_cons] at member
    generalize split : v.finalizeElement = done at member
    obtain ⟨w, outcome⟩ := done
    cases outcome with
    | error e =>
      cases List.mem_cons.mp member with
      | inl same => exact ⟨v, List.mem_cons_self .., .inr (by rw [split, same])⟩
      | inr later => exact ⟨after, List.mem_cons_of_mem _ later, .inl rfl⟩
    | ok u =>
      cases List.mem_cons.mp member with
      | inl same => exact ⟨v, List.mem_cons_self .., .inr (by rw [split, same])⟩
      | inr later =>
        obtain ⟨w, inside, shape⟩ := ih later
        exact ⟨w, List.mem_cons_of_mem _ inside, shape⟩

theorem finalizeAll_nil {items : List Value} : (finalizeAll items).1 = [] ↔ items = [] := by
  cases items with
  | nil => exact Iff.rfl
  | cons v rest =>
    rw [finalizeAll_cons]
    split <;> simp

theorem finalizeAll_error {items : List Value} {e : NodeError} (failed : (finalizeAll items).2 = .error e) :
    ∃ v ∈ items, v.finalizeElement.2 = .error e := by
  induction items with
  | nil => cases failed
  | cons v rest ih =>
    rw [finalizeAll_cons] at failed
    generalize split : v.finalizeElement = done at failed
    obtain ⟨w, outcome⟩ := done
    cases outcome with
    | error e' => exact ⟨v, List.mem_cons_self .., by rw [split]; exact failed⟩
    | ok u =>
      obtain ⟨w, inside, shape⟩ := ih failed
      exact ⟨w, List.mem_cons_of_mem _ inside, shape⟩

theorem finalizeAll_ok {items : List Value} (ok : (finalizeAll items).2 = .ok ()) :
    (finalizeAll items).1 = items.map (fun v => v.finalizeElement.1) ∧
      ∀ v ∈ items, v.finalizeElement.2 = .ok () := by
  induction items with
  | nil => exact ⟨rfl, fun _ member => by cases member⟩
  | cons v rest ih =>
    rw [finalizeAll_cons] at ok ⊢
    generalize split : v.finalizeElement = done at ok ⊢
    obtain ⟨w, outcome⟩ := done
    cases outcome with
    | error e => cases ok
    | ok u =>
      obtain ⟨same, all⟩ := ih ok
      refine ⟨by rw [List.map_cons, split, same], ?_⟩
      rw [List.forall_mem_cons, split]
      exact ⟨rfl, all⟩

end Value

namespace Slot

def finalize (kind : String) (f : Field) : Slot → Slot × Except NodeError (List String)
  | .unset =>
    match f.cardinality with
    | .required | .oneOrMore => (.unset, .ok [f.name])
    | .optional => (.explicitNone, .ok [])
    | .zeroOrMore => (.value (.tuple []), .ok [])
    | .unknown tag => (.unset, .error (.unknownModifier kind f.name tag))
  | .explicitNone => (.explicitNone, .ok [])
  | .value v =>
    (.value (v.finalizeIn f.cardinality.isSequence).1,
      (v.finalizeIn f.cardinality.isSequence).2.map fun _ => [])

variable {kind : String} {f : Field} {fs : List Field} {ss : List Slot}

theorem finalizeAll_cons (s : Slot) : finalizeAll kind (f :: fs) (s :: ss) =
    match s.finalize kind f with
    | (s, .error e) => (s :: ss, .error e)
    | (s, .ok missing) =>
      (s :: (finalizeAll kind fs ss).1, (finalizeAll kind fs ss).2.map (missing ++ ·)) := by
  have nothing : ∀ outcome : Except NodeError (List String), outcome.map ([] ++ ·) = outcome := by
    intro outcome
    cases outcome <;> rfl
  cases s with
  | unset =>
    change (match f.cardinality with
      | .required | .oneOrMore => _ | .optional => _ | .zeroOrMore => _ | .unknown tag => _) = _
    unfold finalize
    cases f.cardinality <;> simp only [nothing] <;> rfl
  | explicitNone =>
    unfold finalize
    simp only [nothing]
    rfl
  | value v =>
    change (match v.finalizeIn f.cardinality.isSequence with | (v, .error e) => _ | (v, .ok ()) => _) = _
    have shape : (value v).finalize kind f = (.value (v.finalizeIn f.cardinality.isSequence).1,
        (v.finalizeIn f.cardinality.isSequence).2.map fun _ => []) := rfl
    rw [shape]
    cases v.finalizeIn f.cardinality.isSequence with
    | mk v outcome =>
      cases outcome with
      | error e => rfl
      | ok u =>
        change _ = (_, (finalizeAll kind fs ss).2.map ([] ++ ·))
        rw [nothing]

theorem finalizeAll_short (short : fs = [] ∨ ss = []) : finalizeAll kind fs ss = (ss, .ok []) := by
  rcases short with rfl | rfl
  · cases ss <;> rfl
  · cases fs <;> rfl

theorem finalizeAll_length : (finalizeAll kind fs ss).1.length = ss.length := by
  induction fs generalizing ss with
  | nil => rw [finalizeAll_short (.inl rfl)]
  | cons f fs ih =>
    cases ss with
    | nil => rw [finalizeAll_short (.inr rfl)]
    | cons s ss =>
      rw [finalizeAll_cons]
      split <;> simp [ih]

theorem finalizeAll_slot {index : Nat} {after : Slot}
    (found : (finalizeAll kind fs ss).1[index]? = some after) :
    ∃ s, ss[index]? = some s ∧ (after = s ∨ ∃ f, fs[index]? = some f ∧ after = (s.finalize kind f).1) := by
  induction fs generalizing ss index with
  | nil =>
    rw [finalizeAll_short (.inl rfl)] at found
    exact ⟨after, found, .inl rfl⟩
  | cons f fs ih =>
    cases ss with
    | nil =>
      rw [finalizeAll_short (.inr rfl)] at found
      cases found
    | cons s ss =>
      rw [finalizeAll_cons] at found
      generalize split : s.finalize kind f = done at found
      obtain ⟨t, outcome⟩ := done
      cases index with
      | zero =>
        refine ⟨s, rfl, .inr ⟨f, rfl, ?_⟩⟩
        rw [split]
        cases outcome <;> cases found <;> rfl
      | succ index =>
        cases outcome with
        | error e => exact ⟨after, found, .inl rfl⟩
        | ok missing => exact ih found

theorem finalizeAll_error {e : NodeError} (failed : (finalizeAll kind fs ss).2 = .error e) :
    ∃ (index : Nat) (f : Field) (s : Slot), fs[index]? = some f ∧ ss[index]? = some s ∧
      (s.finalize kind f).2 = .error e := by
  induction fs generalizing ss e with
  | nil =>
    rw [finalizeAll_short (.inl rfl)] at failed
    cases failed
  | cons f fs ih =>
    cases ss with
    | nil =>
      rw [finalizeAll_short (.inr rfl)] at failed
      cases failed
    | cons s ss =>
      rw [finalizeAll_cons] at failed
      generalize split : s.finalize kind f = done at failed
      obtain ⟨t, outcome⟩ := done
      cases outcome with
      | error e' => exact ⟨0, f, s, rfl, rfl, by rw [split]; exact failed⟩
      | ok missing =>
        cases later : (finalizeAll kind fs ss).2 with
        | error e' =>
          obtain ⟨index, g, t, place⟩ := ih later
          rw [later] at failed
          cases failed
          exact ⟨index + 1, g, t, place⟩
        | ok missing' =>
          rw [later] at failed
          cases failed

theorem finalizeAll_ok {missing : List String} (ok : (finalizeAll kind fs ss).2 = .ok missing)
    {index : Nat} {s : Slot} (field : fs[index]? = some f) (slot : ss[index]? = some s) :
    (finalizeAll kind fs ss).1[index]? = some (s.finalize kind f).1 ∧
      ∃ names, (s.finalize kind f).2 = .ok names ∧ ∀ name ∈ names, name ∈ missing := by
  induction fs generalizing ss index missing with
  | nil => cases field
  | cons g fs ih =>
    cases ss with
    | nil => cases slot
    | cons t ss =>
      rw [finalizeAll_cons] at ok ⊢
      generalize split : t.finalize kind g = done at ok ⊢
      obtain ⟨u, outcome⟩ := done
      cases outcome with
      | error e => cases ok
      | ok names =>
        cases later : (finalizeAll kind fs ss).2 with
        | error e =>
          rw [later] at ok
          cases ok
        | ok names' =>
          rw [later] at ok
          cases ok
          cases index with
          | zero =>
            cases field
            cases slot
            rw [split]
            exact ⟨rfl, names, rfl, fun name member => List.mem_append_left _ member⟩
          | succ index =>
            obtain ⟨placed, names'', here, inside⟩ := ih later field slot
            exact ⟨placed, names'', here, fun name member => List.mem_append_right _ (inside name member)⟩

end Slot

namespace Node

variable {n : Node}

theorem finalize_slots : n.finalize.1 =
    .mk n.schema (Slot.finalizeAll n.kind n.schema.fields n.slots).1 := by
  cases n with
  | mk schema slots => rfl

theorem finalize_schema : n.finalize.1.schema = n.schema := by
  rw [finalize_slots]
  rfl

theorem finalize_outcome : n.finalize.2 =
    match (Slot.finalizeAll n.kind n.schema.fields n.slots).2 with
    | .error e => .error e
    | .ok [] => .ok ()
    | .ok missing => .error (.incomplete n.kind missing) := by
  cases n with
  | mk schema slots => rfl

theorem finalize_sized (sized : n.Sized) : n.finalize.1.Sized := by
  rw [finalize_slots]
  exact Slot.finalizeAll_length.trans sized

theorem finalize_slot {index : Nat} {after : Slot} (found : n.finalize.1.slots[index]? = some after) :
    ∃ s, n.slots[index]? = some s ∧
      (after = s ∨ ∃ f, n.schema.fields[index]? = some f ∧ after = (s.finalize n.kind f).1) := by
  rw [finalize_slots] at found
  exact Slot.finalizeAll_slot found

end Node

theorem ElementType.accepts_schema {type : ElementType} {n m : Node} (same : m.schema = n.schema) :
    type.accepts (.node m) = type.accepts (.node n) := by
  cases type <;> simp [ElementType.accepts, Value.isSingleton, Value.isConstant, Node.isA, same]

theorem Value.finalizeElement_accepts (type : ElementType) (v : Value) :
    type.accepts v.finalizeElement.1 = type.accepts v := by
  cases v with
  | node n => exact ElementType.accepts_schema Node.finalize_schema
  | _ => rfl

variable {r : Registry} {kind : String} {f : Field}

theorem Value.finalizeIn_cases (sequence : Bool) (v : Value) :
    (∃ items, sequence = true ∧ v.items? = some items ∧
      v.finalizeIn sequence = (.tuple (Value.finalizeAll items).1, (Value.finalizeAll items).2)) ∨
    (∃ n, sequence = false ∧ v = .node n ∧
      v.finalizeIn sequence = (.node n.finalize.1, n.finalize.2)) ∨
    ((sequence = true → v.items? = Option.none) ∧ (sequence = false → v.node? = Option.none) ∧
      v.finalizeIn sequence = (v, .ok ())) := by
  cases sequence with
  | true =>
    cases v with
    | list items => exact .inl ⟨items, rfl, rfl, rfl⟩
    | tuple items => exact .inl ⟨items, rfl, rfl, rfl⟩
    | _ => exact .inr (.inr ⟨fun _ => rfl, nofun, rfl⟩)
  | false =>
    cases v with
    | node n => exact .inr (.inl ⟨n, rfl, rfl, rfl⟩)
    | _ => exact .inr (.inr ⟨nofun, fun _ => rfl, rfl⟩)

theorem Value.finalizeElement_typed {v : Value} (typed : v.WellTyped r)
    (inner : ∀ n, v = .node n → n.WellTyped r → n.finalize.1.WellTyped r) :
    v.finalizeElement.1.WellTyped r := by
  cases v with
  | node n => exact inner n rfl typed
  | _ => exact typed

theorem Field.fits_repeated {v : Value} (repeated : f.cardinality.isSequence = true) (fits : f.Fits v) :
    ∃ items, v.items? = some items ∧ (f.cardinality = .oneOrMore → items ≠ []) ∧
      ∀ item ∈ items, f.type.accepts item = true := by
  unfold Field.Fits at fits
  cases card : f.cardinality <;> simp only [card] at fits repeated ⊢ <;> cases repeated <;> exact fits

theorem Field.fits_items {v : Value} {items : List Value} (repeated : f.cardinality.isSequence = true)
    (found : v.items? = some items) : f.Fits v ↔
      (f.cardinality = .oneOrMore → items ≠ []) ∧ ∀ item ∈ items, f.type.accepts item = true := by
  unfold Field.Fits
  cases card : f.cardinality <;> simp_all [Cardinality.isSequence]

theorem Field.fits_single {v : Value} (single : f.cardinality.isSequence = false)
    (known : ∀ tag, f.cardinality ≠ .unknown tag) : f.Fits v ↔
      (f.cardinality = .optional → v.isNone = false) ∧ f.type.accepts v = true := by
  unfold Field.Fits
  cases card : f.cardinality <;> simp_all [Cardinality.isSequence]

theorem Field.fits_completed {v : Value} {items : List Value} (repeated : f.cardinality.isSequence = true)
    (found : v.items? = some items) (fits : f.Fits v) : f.Fits (.tuple (Value.finalizeAll items).1) := by
  obtain ⟨filled, accepted⟩ := (fits_items repeated found).mp fits
  refine (fits_items (v := .tuple _) repeated rfl).mpr ⟨fun one => ?_, fun after member => ?_⟩
  · rw [Ne, Value.finalizeAll_nil]
    exact filled one
  · obtain ⟨v, inside, shape⟩ := Value.finalizeAll_mem member
    rcases shape with rfl | rfl
    · exact accepted after inside
    · rw [Value.finalizeElement_accepts]
      exact accepted v inside

theorem Value.finalizeAll_typed {items : List Value} (typed : ∀ v ∈ items, v.WellTyped r)
    (inner : ∀ n, .node n ∈ items → n.WellTyped r → n.finalize.1.WellTyped r) :
    ∀ after ∈ (finalizeAll items).1, after.WellTyped r := by
  intro after member
  obtain ⟨v, inside, shape⟩ := finalizeAll_mem member
  rcases shape with rfl | rfl
  · exact typed after inside
  · refine finalizeElement_typed (typed v inside) fun n same => inner n ?_
    rw [← same]
    exact inside

theorem Field.fits_node {n m : Node} (same : m.schema = n.schema) :
    f.Fits (.node m) ↔ f.Fits (.node n) := by
  unfold Field.Fits
  rw [ElementType.accepts_schema same]
  rfl

theorem Slot.finalize_typed {s : Slot} (typed : s.Typed r f)
    (inner : ∀ child ∈ s.children, child.WellTyped r → child.finalize.1.WellTyped r) :
    (s.finalize kind f).1.Typed r f := by
  cases s with
  | unset =>
    unfold finalize
    cases card : f.cardinality with
    | optional => exact card
    | zeroOrMore =>
      refine ⟨(Field.fits_items (v := .tuple []) (by rw [card]; rfl) rfl).mpr ⟨?_, ?_⟩, trivial⟩
      · intro impossible
        cases card.symm.trans impossible
      · intro item impossible
        cases impossible
    | _ => trivial
  | explicitNone => exact typed
  | value v =>
    obtain ⟨fits, below⟩ := typed
    change f.Fits (v.finalizeIn _).1 ∧ (v.finalizeIn _).1.WellTyped r
    rcases Value.finalizeIn_cases f.cardinality.isSequence v with
      ⟨items, repeated, found, done⟩ | ⟨n, -, rfl, done⟩ | ⟨-, -, done⟩
    · rw [done]
      refine ⟨Field.fits_completed repeated found fits, Value.allTyped_mem.mpr ?_⟩
      refine Value.finalizeAll_typed ((Value.items_typed found).mp below) fun n inside => inner n ?_
      exact Value.mem_children.mpr (.inr ⟨items, found, inside⟩)
    · rw [done]
      exact ⟨(Field.fits_node Node.finalize_schema).mpr fits,
        inner n (Value.mem_children.mpr (.inl rfl)) below⟩
    · rw [done]
      exact ⟨fits, below⟩

theorem Node.finalize_typed (n : Node) : n.WellTyped r → n.finalize.1.WellTyped r := by
  induction n using Node.children_induct with
  | step n ih =>
    intro typed
    obtain ⟨member, sized, slots⟩ := wellTyped_index.mp typed
    refine wellTyped_index.mpr ⟨by rw [finalize_schema]; exact member, finalize_sized sized,
      fun index f after field found => ?_⟩
    rw [finalize_schema] at field
    obtain ⟨s, slot, shape⟩ := finalize_slot found
    have ofSlot := slots index f s field slot
    rcases shape with rfl | ⟨g, same, rfl⟩
    · exact ofSlot
    · cases field.symm.trans same
      refine Slot.finalize_typed ofSlot fun child inside => ih child ?_
      exact mem_children.mpr ⟨s, List.mem_of_getElem? slot, inside⟩

def Slot.childSchema? (s : Slot) : Option Schema := s.node?.map Node.schema

def Node.childSchema? (n : Node) (name : String) : Option Schema := (n.nodeAt? name).map Node.schema

-- The same kind, with nodes of the same kinds in its fields.
structure Node.Alike (n m : Node) : Prop where
  schema : m.schema = n.schema
  children (name : String) : m.childSchema? name = n.childSchema? name

theorem Node.Alike.refl (n : Node) : n.Alike n := ⟨rfl, fun _ => rfl⟩

theorem Slot.finalize_childSchema (s : Slot) : (s.finalize kind f).1.childSchema? = s.childSchema? := by
  cases s with
  | unset =>
    unfold finalize
    cases f.cardinality <;> rfl
  | explicitNone => rfl
  | value v =>
    change ((v.finalizeIn _).1.node?).map Node.schema = v.node?.map Node.schema
    rcases Value.finalizeIn_cases f.cardinality.isSequence v with
      ⟨items, -, found, done⟩ | ⟨n, -, rfl, done⟩ | ⟨-, -, done⟩
    · rw [done]
      cases v <;> cases found <;> rfl
    · rw [done]
      exact congrArg some Node.finalize_schema
    · rw [done]

theorem Slot.finalize_child {s : Slot} {child : Node} (member : child ∈ (s.finalize kind f).1.children) :
    ∃ c ∈ s.children, child = c ∨ child = c.finalize.1 := by
  cases s with
  | unset =>
    unfold finalize at member
    cases card : f.cardinality <;> rw [card] at member <;> cases member
  | explicitNone => cases member
  | value v =>
    change child ∈ (v.finalizeIn f.cardinality.isSequence).1.children at member
    change ∃ c ∈ v.children, _
    rcases Value.finalizeIn_cases f.cardinality.isSequence v with
      ⟨items, -, found, done⟩ | ⟨n, -, rfl, done⟩ | ⟨-, -, done⟩
    · rw [done] at member
      obtain ⟨_, same, inside⟩ := (Value.mem_children.mp member).resolve_left nofun
      cases same
      obtain ⟨w, element, shape⟩ := Value.finalizeAll_mem inside
      cases w with
      | node c =>
        refine ⟨c, Value.mem_children.mpr (.inr ⟨items, found, element⟩), ?_⟩
        rcases shape with same | same
        · exact .inl (Value.node.inj same)
        · exact .inr (Value.node.inj same)
      | _ => rcases shape with same | same <;> cases same
    · rw [done] at member
      exact ⟨n, List.mem_singleton_self _, .inr (List.mem_singleton.mp member)⟩
    · rw [done] at member
      exact ⟨child, member, .inl rfl⟩

namespace Node

variable {n : Node}

theorem finalize_alike : n.Alike n.finalize.1 := by
  refine ⟨finalize_schema, fun name => ?_⟩
  have lift : ∀ m : Node, m.childSchema? name = (m.slot? name).bind Slot.childSchema? := by
    intro m
    unfold childSchema? nodeAt?
    cases m.slot? name <;> rfl
  rw [lift, lift, slot?, slot?, finalize_schema]
  cases n.schema.fieldIndex? name with
  | none => rfl
  | some index =>
    change (n.finalize.1.slots[index]?).bind _ = (n.slots[index]?).bind _
    cases found : n.finalize.1.slots[index]? with
    | some after =>
      obtain ⟨s, slot, shape⟩ := finalize_slot found
      rw [slot]
      rcases shape with rfl | ⟨f, -, rfl⟩
      · rfl
      · exact Slot.finalize_childSchema s
    | none =>
      rw [finalize_slots, List.getElem?_eq_none_iff] at found
      rw [List.getElem?_eq_none (Nat.le_trans (Nat.le_of_eq Slot.finalizeAll_length.symm) found)]

theorem finalize_visited (n : Node) : ∀ m ∈ n.finalize.1.visited, ∃ k ∈ n.visited, k.Alike m := by
  induction n using children_induct with
  | step n ih =>
    intro m met
    rcases mem_visited.mp met with rfl | ⟨child, inside, below⟩
    · exact ⟨n, n.self_visited, finalize_alike⟩
    · obtain ⟨after, slot, held⟩ := mem_children.mp inside
      obtain ⟨index, place⟩ := List.getElem?_of_mem slot
      obtain ⟨s, before, shape⟩ := finalize_slot place
      have ofSlot : ∃ c ∈ s.children, child = c ∨ child = c.finalize.1 := by
        rcases shape with rfl | ⟨f, -, rfl⟩
        · exact ⟨child, held, .inl rfl⟩
        · exact Slot.finalize_child held
      obtain ⟨c, part, same⟩ := ofSlot
      have member : c ∈ n.children := mem_children.mpr ⟨s, List.mem_of_getElem? before, part⟩
      rcases same with rfl | rfl
      · exact ⟨m, mem_visited.mpr (.inr ⟨child, member, below⟩), .refl m⟩
      · obtain ⟨k, first, alike⟩ := ih c member m below
        exact ⟨k, mem_visited.mpr (.inr ⟨c, member, first⟩), alike⟩

end Node

-- A field of a known cardinality whose elements are not sequences themselves.
structure Field.Plain (f : Field) : Prop where
  known (tag : String) : f.cardinality ≠ .unknown tag
  flat : f.type ≠ .object

def Registry.Plain (r : Registry) : Prop := ∀ schema ∈ r.schemas, ∀ f ∈ schema.fields, f.Plain

-- A slot as completion leaves it: set, and a tuple in a repeated field.
def Slot.Finished (f : Field) (s : Slot) : Prop :=
  s.isUnset = false ∧ (f.cardinality.isSequence = true → ∃ items, s = .value (.tuple items))

-- Every node that is met has only finished slots.
def Node.Finished (n : Node) : Prop :=
  ∀ m ∈ n.visited, ∀ (index : Nat) f (s : Slot), m.schema.fields[index]? = some f →
    m.slots[index]? = some s → s.Finished f

theorem ElementType.accepts_flat {type : ElementType} {v : Value} (flat : type ≠ .object)
    (accepted : type.accepts v = true) : v.items? = none := by
  cases v with
  | list items => cases type <;> first | exact absurd rfl flat | cases accepted
  | tuple items => cases type <;> first | exact absurd rfl flat | cases accepted
  | _ => rfl

theorem Slot.finalize_error {s : Slot} {e : NodeError} (plain : f.Plain)
    (failed : (s.finalize kind f).2 = .error e) : ∃ child ∈ s.children, child.finalize.2 = .error e := by
  cases s with
  | unset =>
    unfold finalize at failed
    cases card : f.cardinality with
    | unknown name => exact absurd card (plain.known name)
    | _ =>
      rw [card] at failed
      cases failed
  | explicitNone => cases failed
  | value v =>
    change (v.finalizeIn f.cardinality.isSequence).2.map _ = _ at failed
    change ∃ child ∈ v.children, _
    have inner : (v.finalizeIn f.cardinality.isSequence).2 = .error e := by
      cases outcome : (v.finalizeIn f.cardinality.isSequence).2 with
      | ok =>
        rw [outcome] at failed
        cases failed
      | error =>
        rw [outcome] at failed
        cases failed
        rfl
    rcases Value.finalizeIn_cases f.cardinality.isSequence v with
      ⟨items, -, found, done⟩ | ⟨n, -, rfl, done⟩ | ⟨-, -, done⟩
    · rw [done] at inner
      obtain ⟨w, element, broken⟩ := Value.finalizeAll_error inner
      cases w with
      | node c => exact ⟨c, Value.mem_children.mpr (.inr ⟨items, found, element⟩), broken⟩
      | _ => cases broken
    · rw [done] at inner
      exact ⟨n, List.mem_singleton_self _, inner⟩
    · rw [done] at inner
      cases inner

theorem Field.Plain.no_children {v : Value} (plain : f.Plain) (single : f.cardinality.isSequence = false)
    (fits : f.Fits v) (notNode : v.node? = none) : v.children = [] := by
  have accepted := ((Field.fits_single single plain.known).mp fits).2
  refine List.eq_nil_iff_forall_not_mem.mpr fun child member => ?_
  rcases Value.mem_children.mp member with rfl | ⟨items, found, -⟩
  · cases notNode
  · rw [ElementType.accepts_flat plain.flat accepted] at found
    cases found

theorem Value.finalizeAll_children {items : List Value} {child : Node} (ok : (finalizeAll items).2 = .ok ())
    (member : .node child ∈ (finalizeAll items).1) :
    ∃ c, .node c ∈ items ∧ child = c.finalize.1 ∧ c.finalize.2 = .ok () := by
  obtain ⟨same, all⟩ := finalizeAll_ok ok
  rw [same] at member
  obtain ⟨w, element, shape⟩ := List.mem_map.mp member
  cases w with
  | node c => exact ⟨c, element, (node.inj shape).symm, all _ element⟩
  | _ => cases shape

theorem Value.finalizeIn_ok {v : Value} (plain : f.Plain) (fits : f.Fits v)
    (ok : (v.finalizeIn f.cardinality.isSequence).2 = .ok ()) :
    (f.cardinality.isSequence = true → ∃ items, (v.finalizeIn f.cardinality.isSequence).1 = .tuple items) ∧
      ∀ child ∈ (v.finalizeIn f.cardinality.isSequence).1.children,
        ∃ c ∈ v.children, child = c.finalize.1 ∧ c.finalize.2 = .ok () := by
  rcases finalizeIn_cases f.cardinality.isSequence v with
    ⟨items, -, found, done⟩ | ⟨n, single, rfl, done⟩ | ⟨notItems, notNode, done⟩
  · rw [done] at ok ⊢
    refine ⟨fun _ => ⟨_, rfl⟩, fun child member => ?_⟩
    obtain ⟨_, same, inside⟩ := (mem_children.mp member).resolve_left nofun
    cases same
    obtain ⟨c, element, finished⟩ := finalizeAll_children ok inside
    exact ⟨c, mem_children.mpr (.inr ⟨items, found, element⟩), finished⟩
  · rw [done] at ok ⊢
    refine ⟨fun repeated => ?_, fun child member => ?_⟩
    · cases single.symm.trans repeated
    · exact ⟨n, List.mem_singleton_self _, List.mem_singleton.mp member, ok⟩
  · have single : f.cardinality.isSequence = false := by
      refine Bool.eq_false_iff.mpr fun repeated => ?_
      -- Only sequences fit a repeated field.
      obtain ⟨items, found, -⟩ := Field.fits_repeated repeated fits
      cases found.symm.trans (notItems repeated)
    rw [done]
    refine ⟨fun repeated => ?_, fun child member => ?_⟩
    · cases single.symm.trans repeated
    · rw [plain.no_children single fits (notNode single)] at member
      cases member

theorem Slot.finalize_ok {s : Slot} (plain : f.Plain) (typed : s.Typed r f)
    (ok : (s.finalize kind f).2 = .ok []) : (s.finalize kind f).1.Finished f ∧
      ∀ child ∈ (s.finalize kind f).1.children,
        ∃ c ∈ s.children, child = c.finalize.1 ∧ c.finalize.2 = .ok () := by
  cases s with
  | unset =>
    unfold finalize at ok ⊢
    cases card : f.cardinality with
    | optional => exact ⟨⟨rfl, by rw [card]; exact nofun⟩, nofun⟩
    | zeroOrMore => exact ⟨⟨rfl, fun _ => ⟨[], rfl⟩⟩, nofun⟩
    | _ =>
      rw [card] at ok
      cases ok
  | explicitNone =>
    refine ⟨⟨rfl, fun repeated => ?_⟩, nofun⟩
    rw [show f.cardinality = .optional from typed] at repeated
    cases repeated
  | value v =>
    change Slot.Finished f (.value (v.finalizeIn f.cardinality.isSequence).1) ∧
      ∀ child ∈ (v.finalizeIn f.cardinality.isSequence).1.children, ∃ c ∈ v.children, _
    change (v.finalizeIn f.cardinality.isSequence).2.map _ = _ at ok
    obtain ⟨fits, -⟩ := typed
    have inner : (v.finalizeIn f.cardinality.isSequence).2 = .ok () := by
      cases outcome : (v.finalizeIn f.cardinality.isSequence).2 with
      | ok => rfl
      | error e =>
        rw [outcome] at ok
        cases ok
    obtain ⟨tuples, nodes⟩ := Value.finalizeIn_ok plain fits inner
    refine ⟨⟨rfl, fun repeated => ?_⟩, nodes⟩
    obtain ⟨items, same⟩ := tuples repeated
    exact ⟨items, congrArg Slot.value same⟩

theorem Node.finalize_each {n : Node} (plain : r.Plain) (typed : n.WellTyped r)
    (ok : (Slot.finalizeAll n.kind n.schema.fields n.slots).2 = .ok []) {index : Nat} {after : Slot}
    (field : n.schema.fields[index]? = some f) (found : n.finalize.1.slots[index]? = some after) :
    after.Finished f ∧
      ∀ child ∈ after.children, ∃ c ∈ n.children, child = c.finalize.1 ∧ c.finalize.2 = .ok () := by
  obtain ⟨member, -, slots⟩ := wellTyped_index.mp typed
  obtain ⟨s, slot, -⟩ := finalize_slot found
  obtain ⟨placed, names, done, none⟩ := Slot.finalizeAll_ok ok field slot
  rw [finalize_slots] at found
  cases placed.symm.trans found
  rw [List.eq_nil_iff_forall_not_mem.mpr fun name given => List.not_mem_nil (none name given)] at done
  have plainAt : f.Plain := plain n.schema member f (List.mem_of_getElem? field)
  obtain ⟨finished, nodes⟩ := Slot.finalize_ok plainAt (slots index f s field slot) done
  refine ⟨finished, fun child held => ?_⟩
  obtain ⟨c, part, completed⟩ := nodes child held
  exact ⟨c, mem_children.mpr ⟨s, List.mem_of_getElem? slot, part⟩, completed⟩

theorem Node.finalize_finished (plain : r.Plain) (n : Node) : n.WellTyped r → n.finalize.2 = .ok () →
    n.finalize.1.Finished := by
  induction n using children_induct with
  | step n ih =>
    intro typed ok m met
    have nothing : (Slot.finalizeAll n.kind n.schema.fields n.slots).2 = .ok [] := by
      rw [finalize_outcome] at ok
      split at ok <;> first | assumption | cases ok
    rcases mem_visited.mp met with rfl | ⟨child, inside, further⟩
    · intro index f s field slot
      rw [finalize_schema] at field
      exact (finalize_each plain typed nothing field slot).1
    · obtain ⟨after, slot, held⟩ := mem_children.mp inside
      obtain ⟨index, place⟩ := List.getElem?_of_mem slot
      obtain ⟨bound, -⟩ := List.getElem?_eq_some_iff.mp place
      rw [finalize_sized typed.sized, finalize_schema] at bound
      obtain ⟨-, children⟩ := finalize_each plain typed nothing (List.getElem?_eq_getElem bound) place
      obtain ⟨c, part, rfl, fine⟩ := children child held
      exact ih c part (child_typed typed part) fine m further

end TreeLowering
