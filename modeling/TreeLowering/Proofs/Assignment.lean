import TreeLowering.Tree.Assign

namespace TreeLowering

theorem bind_ok {ε α β : Type} {first : Except ε α} {next : α → Except ε β} {b : β} :
    (first >>= next) = .ok b ↔ ∃ a, first = .ok a ∧ next a = .ok b := by
  cases first with
  | error e =>
    constructor
    · intro ran
      cases ran
    · intro shape
      obtain ⟨a, impossible, -⟩ := shape
      cases impossible
  | ok a =>
    constructor
    · exact fun ran => ⟨a, rfl, ran⟩
    · intro shape
      obtain ⟨same, found, ran⟩ := shape
      cases found
      exact ran

namespace Field

-- The values that a field stores as they are.
def Fits (f : Field) (v : Value) : Prop :=
  match f.cardinality with
  | .required => f.type.accepts v = true
  | .optional => v.isNone = false ∧ f.type.accepts v = true
  | .zeroOrMore | .oneOrMore =>
    ∃ items, v.items? = some items ∧ (f.cardinality = .oneOrMore → items ≠ []) ∧
      ∀ item ∈ items, f.type.accepts item = true
  | .unknown _ => True

variable {kind : String} {f : Field}

theorem check_ok {v : Value} {index : Option Nat} :
    f.check kind v index = .ok () ↔ f.type.accepts v = true := by
  unfold check
  constructor
  · intro checked
    split at checked
    · assumption
    · split at checked <;> cases checked
  · intro accepted
    rw [if_pos accepted]

theorem checkItems_ok {index : Nat} {items : List Value} :
    f.checkItems kind index items = .ok () ↔ ∀ item ∈ items, f.type.accepts item = true := by
  induction items generalizing index with
  | nil => simp [checkItems]
  | cons v rest ih =>
    unfold checkItems
    cases first : f.check kind v (some index) with
    | error e =>
      have refused : f.type.accepts v ≠ true := fun accepted => by
        rw [check_ok.mpr accepted] at first
        cases first
      constructor
      · intro checked
        cases checked
      · intro all
        exact absurd (all v (List.mem_cons_self ..)) refused
    | ok u =>
      have accepted : f.type.accepts v = true := check_ok.mp first
      change f.checkItems kind (index + 1) rest = .ok () ↔ _
      rw [ih, List.forall_mem_cons]
      exact ⟨fun all => ⟨accepted, all⟩, fun all => all.2⟩

theorem checked_then {α ε : Type} {check : Except ε Unit} {a b : α} :
    (do check; return a : Except ε α) = .ok b ↔ check = .ok () ∧ b = a := by
  cases check with
  | error e =>
    constructor
    · intro stored
      cases stored
    · intro both
      cases both.1
  | ok u =>
    constructor
    · intro stored
      cases stored
      exact ⟨rfl, rfl⟩
    · intro both
      rw [both.2]
      rfl

theorem assign_sequence {v : Value} {s : Slot} (repeated : f.cardinality.isSequence = true) :
    f.assign kind v = .ok s ↔
      ∃ items, v.items? = some items ∧ (f.cardinality = .oneOrMore → items ≠ []) ∧
        (∀ item ∈ items, f.type.accepts item = true) ∧ s = .value v := by
  have unfolded : f.assign kind v =
      v.items?.elim (.error (.wrongType kind f.name ("a sequence of " ++ f.type.name) v.typeName none))
        fun items =>
          if items.isEmpty && f.cardinality == .oneOrMore then .error (f.emptied kind)
          else do
            f.checkItems kind 0 items
            return .value v := by
    unfold assign
    cases v.items? <;> cases card : f.cardinality <;> first | rfl | (rw [card] at repeated; cases repeated)
  rw [unfolded]
  cases found : v.items? with
  | none => simp
  | some items =>
    rw [Option.elim_some]
    split
    · next empty =>
      rw [Bool.and_eq_true, List.isEmpty_iff, beq_iff_eq] at empty
      constructor
      · intro stored
        cases stored
      · intro shape
        obtain ⟨items', same, nonempty, -⟩ := shape
        cases same
        exact absurd empty.1 (nonempty empty.2)
    · next nonempty =>
      rw [Bool.and_eq_true, List.isEmpty_iff, beq_iff_eq, not_and'] at nonempty
      rw [checked_then, checkItems_ok]
      constructor
      · intro stored
        exact ⟨items, rfl, nonempty, stored⟩
      · intro shape
        obtain ⟨items', same, -, stored⟩ := shape
        cases same
        exact stored

-- Assignment in full: None in an optional field says that there is no value, and what fits is stored.
theorem assign_exact {v : Value} {s : Slot} :
    f.assign kind v = .ok s ↔
      (f.cardinality = .optional ∧ v.isNone = true ∧ s = .explicitNone) ∨ (f.Fits v ∧ s = .value v) := by
  cases card : f.cardinality with
  | required => simp only [assign, Fits, card, checked_then, check_ok, reduceCtorEq, false_and, false_or]
  | optional =>
    simp only [assign, Fits, card, true_and]
    cases isNone : v.isNone with
    | true =>
      simp only [if_true, Except.ok.injEq, true_and, Bool.true_eq_false, false_and, or_false]
      exact eq_comm
    | false => simp only [Bool.false_eq_true, if_false, checked_then, check_ok, true_and, false_and, false_or]
  | zeroOrMore =>
    rw [assign_sequence (by rw [card]; rfl)]
    simp only [Fits, card, reduceCtorEq, false_and, false_or]
    exact ⟨fun ⟨items, found, nonempty, all, stored⟩ => ⟨⟨items, found, nonempty, all⟩, stored⟩,
      fun ⟨⟨items, found, nonempty, all⟩, stored⟩ => ⟨items, found, nonempty, all, stored⟩⟩
  | oneOrMore =>
    rw [assign_sequence (by rw [card]; rfl)]
    simp only [Fits, card, reduceCtorEq, false_and, false_or]
    exact ⟨fun ⟨items, found, nonempty, all, stored⟩ => ⟨⟨items, found, nonempty, all⟩, stored⟩,
      fun ⟨⟨items, found, nonempty, all⟩, stored⟩ => ⟨items, found, nonempty, all, stored⟩⟩
  | unknown tag =>
    simp only [assign, Fits, card, reduceCtorEq, false_and, false_or, true_and, Except.ok.injEq]
    exact eq_comm

theorem assign_value {v : Value} : f.assign kind v = .ok (.value v) ↔ f.Fits v := by
  rw [assign_exact]
  simp

end Field

def Schema.field? (schema : Schema) (name : String) : Option Field :=
  (schema.fieldIndex? name).bind (schema.fields[·]?)

namespace Node

variable {n after : Node} {name : String} {v : Value}

def Sized (n : Node) : Prop := n.slots.length = n.schema.fields.length

theorem empty_sized (schema : Schema) : (empty schema).Sized := List.length_replicate ..

theorem put_sized {index : Nat} {slot : Slot} (sized : n.Sized) : (n.put index slot).Sized := by
  change (n.slots.set index slot).length = n.schema.fields.length
  rw [List.length_set]
  exact sized

theorem fieldIndex_field {schema : Schema} {index : Nat} (found : schema.fieldIndex? name = some index) :
    ∃ f, schema.fields[index]? = some f ∧ f.name = name := by
  obtain ⟨bound, same, -⟩ := List.findIdx?_eq_some_iff_getElem.mp found
  exact ⟨_, List.getElem?_eq_getElem bound, beq_iff_eq.mp same⟩

theorem fieldIndex_place {schema : Schema} (distinct : (schema.fields.map Field.name).Nodup) {index : Nat}
    {f : Field} (field : schema.fields[index]? = some f) : schema.fieldIndex? f.name = some index := by
  obtain ⟨bound, rfl⟩ := List.getElem?_eq_some_iff.mp field
  refine List.findIdx?_eq_some_iff_getElem.mpr ⟨bound, beq_self_eq_true _, fun j earlier => ?_⟩
  intro same
  have apart := List.pairwise_iff_getElem.mp distinct j index (by simp; omega) (by simpa using bound) earlier
  rw [List.getElem_map, List.getElem_map] at apart
  exact apart (beq_iff_eq.mp same)

theorem set_exact : n.set name v = .ok after ↔
    ∃ index f s, n.schema.fieldIndex? name = some index ∧ n.schema.fields[index]? = some f ∧
      f.assign n.kind v = .ok s ∧ after = n.put index s := by
  unfold set indexOf
  cases found : n.schema.fieldIndex? name with
  | none =>
    constructor
    · intro stored
      cases stored
    · intro shape
      obtain ⟨index, f, s, impossible, -⟩ := shape
      cases impossible
  | some index =>
    obtain ⟨f, declared, -⟩ := fieldIndex_field found
    change n.setAt index v = .ok after ↔ _
    unfold setAt
    rw [declared]
    dsimp only
    cases assigned : f.assign n.kind v with
    | error e =>
      constructor
      · intro stored
        cases stored
      · intro shape
        obtain ⟨index', f', s, same, isField, stored, -⟩ := shape
        cases same
        cases declared.symm.trans isField
        rw [assigned] at stored
        cases stored
    | ok s =>
      constructor
      · intro stored
        cases stored
        exact ⟨index, _, s, rfl, declared, assigned, rfl⟩
      · intro shape
        obtain ⟨index', f', s', same, isField, stored, rfl⟩ := shape
        cases same
        cases declared.symm.trans isField
        rw [assigned] at stored
        cases stored
        rfl

theorem set_schema (stored : n.set name v = .ok after) : after.schema = n.schema := by
  obtain ⟨index, f, s, -, -, -, rfl⟩ := set_exact.mp stored
  rfl

theorem set_sized (sized : n.Sized) (stored : n.set name v = .ok after) : after.Sized := by
  obtain ⟨index, f, s, -, -, -, rfl⟩ := set_exact.mp stored
  exact put_sized sized

theorem slot?_put {index : Nat} {s : Slot} {other : String} (sized : n.Sized)
    (found : n.schema.fieldIndex? name = some index) :
    (n.put index s).slot? other =
      if n.schema.fieldIndex? other = some index then some s else n.slot? other := by
  obtain ⟨bound, -⟩ := List.findIdx?_eq_some_iff_getElem.mp found
  have inside : index < n.slots.length := sized ▸ bound
  change (n.schema.fieldIndex? other).bind ((n.slots.set index s)[·]?) = _
  unfold slot?
  cases place : n.schema.fieldIndex? other with
  | none => simp
  | some at_ =>
    by_cases same : at_ = index
    · subst same
      simp [inside]
    · simp [same, List.getElem?_set_ne (Ne.symm same)]

theorem set_slot (sized : n.Sized) (stored : n.set name v = .ok after) :
    ∃ f s, n.schema.field? name = some f ∧ f.assign n.kind v = .ok s ∧
      ∀ other, after.slot? other = if other = name then some s else n.slot? other := by
  obtain ⟨index, f, s, found, declared, assigned, rfl⟩ := set_exact.mp stored
  refine ⟨f, s, by simp [Schema.field?, found, declared], assigned, fun other => ?_⟩
  rw [slot?_put sized found]
  by_cases same : other = name
  · subst same
    rw [if_pos found, if_pos rfl]
  · have apart : n.schema.fieldIndex? other ≠ some index := by
      intro shared
      obtain ⟨g, isField, named⟩ := fieldIndex_field shared
      obtain ⟨g', isField', named'⟩ := fieldIndex_field found
      cases isField.symm.trans isField'
      exact same (named.symm.trans named')
    rw [if_neg apart, if_neg same]

def lastGiven? (name : String) : List (String × Value) → Option Value
  | [] => none
  | (key, v) :: rest => (lastGiven? name rest).or (if key = name then some v else none)

variable {named : List (String × Value)}

theorem setNamed_cons {key : String} {rest : List (String × Value)} :
    n.setNamed ((key, v) :: rest) = .ok after ↔
      ∃ middle, n.set key v = .ok middle ∧ middle.setNamed rest = .ok after := by
  rw [setNamed]
  cases first : n.set key v with
  | error e =>
    constructor
    · intro stored
      cases stored
    · intro shape
      obtain ⟨middle, impossible, -⟩ := shape
      cases impossible
  | ok middle =>
    constructor
    · intro stored
      exact ⟨middle, rfl, stored⟩
    · intro shape
      obtain ⟨middle', same, stored⟩ := shape
      cases same
      exact stored

-- What every single assignment keeps, all of them keep.
theorem setNamed_induct {motive : Node → Prop} (start : motive n)
    (step : ∀ before name v after, motive before → (name, v) ∈ named → before.set name v = .ok after →
      motive after)
    (stored : n.setNamed named = .ok after) : motive after := by
  induction named generalizing n with
  | nil =>
    cases stored
    exact start
  | cons field rest ih =>
    obtain ⟨key, v⟩ := field
    obtain ⟨middle, first, others⟩ := setNamed_cons.mp stored
    refine ih (step n key v middle start (List.mem_cons_self ..) first) ?_ others
    intro before name v after kept member assigned
    exact step before name v after kept (List.mem_cons_of_mem _ member) assigned

-- A name for which nothing is given keeps its slot; the others hold what was given last.
theorem setNamed_slot (sized : n.Sized) (stored : n.setNamed named = .ok after) (name : String) :
    match lastGiven? name named with
    | none => after.slot? name = n.slot? name
    | some v => ∃ f s, n.schema.field? name = some f ∧ f.assign n.kind v = .ok s ∧
        after.slot? name = some s := by
  induction named generalizing n with
  | nil =>
    cases stored
    rfl
  | cons field rest ih =>
    obtain ⟨key, v⟩ := field
    obtain ⟨middle, first, others⟩ := setNamed_cons.mp stored
    have later := ih (set_sized sized first) others
    obtain ⟨f, s, declared, assigned, slots⟩ := set_slot sized first
    have sameSchema := set_schema first
    unfold lastGiven?
    cases given : lastGiven? name rest with
    | some w =>
      rw [given] at later
      obtain ⟨g, s', declared', assigned', slot⟩ := later
      rw [sameSchema] at declared'
      unfold kind at assigned'
      rw [sameSchema] at assigned'
      exact ⟨g, s', declared', assigned', slot⟩
    | none =>
      rw [given] at later
      dsimp only at later
      by_cases same : key = name
      · subst same
        rw [slots key, if_pos rfl] at later
        simp only [if_true, Option.none_or]
        exact ⟨f, s, declared, assigned, later⟩
      · rw [slots name, if_neg (Ne.symm same)] at later
        simp only [same, if_false, Option.none_or]
        exact later

theorem fields_named (sized : n.Sized) (distinct : (n.schema.fields.map Field.name).Nodup) :
    n.fields = n.schema.fields.map fun f => (f, (n.slot? f.name).getD .unset) := by
  have lengths : n.slots.length = n.schema.fields.length := sized
  refine List.ext_getElem (by simp [fields, lengths]) fun index bound _ => ?_
  have within : index < n.schema.fields.length := by simpa [fields, lengths] using bound
  have place := fieldIndex_place distinct (List.getElem?_eq_getElem within)
  simp [fields, slot?, place, show index < n.slots.length from lengths ▸ within]

theorem ofFields_setNamed (schema : Schema) (named : List (String × Value)) :
    ofFields schema named = (empty schema).setNamed named := rfl

variable {schema : Schema} {made : Node} {f : Field}

theorem ofFields_schema (ok : ofFields schema named = .ok made) : made.schema = schema :=
  setNamed_induct (motive := fun n => n.schema = schema) rfl
    (fun _ _ _ _ same _ stored => by rw [set_schema stored, same]) ok

theorem empty_slot (declared : schema.field? name = some f) : (empty schema).slot? name = some .unset := by
  obtain ⟨index, found, place⟩ := Option.bind_eq_some_iff.mp declared
  have bound := (List.getElem?_eq_some_iff.mp place).1
  change (schema.fieldIndex? name).bind ((List.replicate schema.fields.length Slot.unset)[·]?) = _
  rw [found]
  exact List.getElem?_replicate_of_lt bound

theorem ofFields_slot (ok : ofFields schema named = .ok made) (declared : schema.field? name = some f) :
    match lastGiven? name named with
    | none => made.slot? name = some .unset
    | some v => ∃ s, f.assign schema.kind v = .ok s ∧ made.slot? name = some s := by
  have slots := setNamed_slot (empty_sized schema) ok name
  split
  · next none =>
    rw [none] at slots
    rw [slots, empty_slot declared]
  · next v given =>
    rw [given] at slots
    obtain ⟨g, s, found, assigned, slot⟩ := slots
    cases declared.symm.trans found
    exact ⟨s, assigned, slot⟩

end Node

end TreeLowering
