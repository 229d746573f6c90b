import TreeLowering.Proofs.Assignment
import TreeLowering.Proofs.Inheritance

namespace TreeLowering

namespace Schema

-- A root, or what is derived from a schema that was built.
inductive Built : Schema → Prop where
  | root {origin : Nat} {kind : String} {own : List Field} {s : Schema} (made : Schema.root origin kind own = .ok s) :
      Built s
  | derived {origin : Nat} {kind : String} {parent : Schema} {own : List Field} {s : Schema} (above : Built parent)
      (made : Schema.derived origin kind parent own = .ok s) : Built s

theorem Built.distinct {s : Schema} (built : s.Built) : (s.fields.map Field.name).Nodup := by
  induction built with
  | root made => exact (build_inherits (fun _ no => (Option.some_ne_none _ no.symm).elim) made).1.distinct
  | derived _ made ih => exact (build_inherits (fun p same => Option.some.inj same ▸ ih) made).1.distinct

end Schema

namespace Field

-- The values that can be assigned: those that fit, and None where there need not be a value.
def Takes (f : Field) (v : Value) : Prop := f.Fits v ∨ f.cardinality = .optional ∧ v.isNone = true

def slotFor (f : Field) (v : Value) : Slot :=
  if f.cardinality = .optional ∧ v.isNone = true then .explicitNone else .value v

theorem assign_takes {kind : String} {f : Field} {v : Value} {s : Slot} :
    f.assign kind v = .ok s ↔ f.Takes v ∧ s = f.slotFor v := by
  have valued : f.Fits v → ¬ (f.cardinality = .optional ∧ v.isNone = true) := by
    intro fits absent
    rw [Fits, absent.1, absent.2] at fits
    cases fits.1
  rw [assign_exact, Takes, slotFor]
  constructor
  · rintro (⟨optional, none, rfl⟩ | ⟨fits, rfl⟩)
    · exact ⟨.inr ⟨optional, none⟩, (if_pos ⟨optional, none⟩).symm⟩
    · exact ⟨.inl fits, (if_neg (valued fits)).symm⟩
  · rintro ⟨fits | absent, rfl⟩
    · exact .inr ⟨fits, if_neg (valued fits)⟩
    · exact .inl ⟨absent.1, absent.2, if_pos absent⟩

end Field

namespace Node

variable {schema : Schema} {n after : Node} {named other : List (String × Value)}

def Taken (schema : Schema) (named : List (String × Value)) : Prop :=
  ∀ name v, (name, v) ∈ named → ∃ f ∈ schema.fields, f.name = name ∧ f.Takes v

-- The node of which each field holds what is given for it last.
def holding (schema : Schema) (named : List (String × Value)) : Node :=
  .mk schema (schema.fields.map fun f => ((lastGiven? f.name named).map f.slotFor).getD .unset)

theorem set_taken (distinct : (n.schema.fields.map Field.name).Nodup) {name : String} {v : Value} :
    (∃ after, n.set name v = .ok after) ↔ ∃ f ∈ n.schema.fields, f.name = name ∧ f.Takes v := by
  constructor
  · rintro ⟨after, stored⟩
    obtain ⟨index, f, s, found, place, assigned, -⟩ := set_exact.mp stored
    obtain ⟨g, there, same⟩ := fieldIndex_field found
    cases place.symm.trans there
    exact ⟨f, List.mem_of_getElem? place, same, (Field.assign_takes.mp assigned).1⟩
  · rintro ⟨f, member, rfl, takes⟩
    obtain ⟨index, place⟩ := List.getElem?_of_mem member
    have assigned : f.assign n.schema.kind v = .ok (f.slotFor v) := Field.assign_takes.mpr ⟨takes, rfl⟩
    exact ⟨_, set_exact.mpr ⟨index, f, _, fieldIndex_place distinct place, place, assigned, rfl⟩⟩

-- One assignment does not stand in the way of another: whether it succeeds goes by the schema alone.
theorem setNamed_taken (distinct : (n.schema.fields.map Field.name).Nodup) :
    (∃ after, n.setNamed named = .ok after) ↔ Taken n.schema named := by
  induction named generalizing n with
  | nil => exact ⟨fun _ name v member => (List.not_mem_nil member).elim, fun _ => ⟨n, rfl⟩⟩
  | cons first rest ih =>
    obtain ⟨key, v⟩ := first
    constructor
    · rintro ⟨after, stored⟩
      obtain ⟨middle, first, others⟩ := setNamed_cons.mp stored
      have same := set_schema first
      have later := (ih (same ▸ distinct)).mp ⟨after, others⟩
      rw [same] at later
      intro name w member
      rcases List.mem_cons.mp member with here | behind
      · cases here
        exact (set_taken distinct).mp ⟨middle, first⟩
      · exact later name w behind
    · intro taken
      obtain ⟨middle, first⟩ := (set_taken distinct).mpr (taken key v (List.mem_cons_self ..))
      have same := set_schema first
      obtain ⟨after, others⟩ := (ih (n := middle) (same ▸ distinct)).mpr fun name w member =>
        same ▸ taken name w (List.mem_cons_of_mem _ member)
      exact ⟨after, setNamed_cons.mpr ⟨middle, first, others⟩⟩

theorem slots_named (sized : n.Sized) (distinct : (n.schema.fields.map Field.name).Nodup) :
    n = .mk n.schema (n.schema.fields.map fun f => (n.slot? f.name).getD .unset) := by
  have slots := congrArg (List.map Prod.snd) (fields_named sized distinct)
  rw [fields, List.map_snd_zip (Nat.le_of_eq sized), List.map_map] at slots
  cases n with
  | mk schema ss => exact congrArg (mk schema) slots

theorem ofFields_holding (distinct : (schema.fields.map Field.name).Nodup) (made : ofFields schema named = .ok n) :
    n = holding schema named := by
  have same : n.schema = schema := ofFields_schema made
  have sized : n.Sized := setNamed_induct (motive := Sized) (empty_sized schema)
    (fun _ _ _ _ kept _ stored => set_sized kept stored) made
  rw [slots_named sized (same ▸ distinct), same]
  refine congrArg (mk schema) (List.map_congr_left fun f member => ?_)
  obtain ⟨index, place⟩ := List.getElem?_of_mem member
  have declared : schema.field? f.name = some f := by
    rw [Schema.field?, fieldIndex_place distinct place, Option.bind_some, place]
  have slot := ofFields_slot made declared
  cases given : lastGiven? f.name named with
  | none =>
    rw [given] at slot
    rw [slot]
    rfl
  | some v =>
    rw [given] at slot
    obtain ⟨s, assigned, slot⟩ := slot
    rw [slot, (Field.assign_takes.mp assigned).2]
    rfl

theorem ofFields_exact (distinct : (schema.fields.map Field.name).Nodup) :
    ofFields schema named = .ok n ↔ Taken schema named ∧ n = holding schema named := by
  have taken : (∃ after, ofFields schema named = .ok after) ↔ Taken schema named := setNamed_taken distinct
  constructor
  · exact fun made => ⟨taken.mp ⟨n, made⟩, ofFields_holding distinct made⟩
  · rintro ⟨all, rfl⟩
    obtain ⟨after, made⟩ := taken.mpr all
    rw [made, ofFields_holding distinct made]

theorem lastGiven_filter (name : String) (named : List (String × Value)) :
    lastGiven? name (named.filter fun p => p.1 == name) = lastGiven? name named := by
  induction named with
  | nil => rfl
  | cons first rest ih =>
    obtain ⟨key, v⟩ := first
    by_cases same : key = name
    · rw [List.filter_cons_of_pos (by simp [same]), lastGiven?, lastGiven?, ih]
    · rw [List.filter_cons_of_neg (by simp [same]), lastGiven?, ih, if_neg same, Option.or_none]

def Reordered (named other : List (String × Value)) : Prop :=
  ∀ name, (named.filter fun p => p.1 == name) = other.filter fun p => p.1 == name

theorem Reordered.mem (alike : Reordered named other) {p : String × Value} : p ∈ named ↔ p ∈ other := by
  have inside : ∀ given : List (String × Value), p ∈ given ↔ p ∈ given.filter fun q => q.1 == p.1 := by simp
  rw [inside named, alike p.1, ← inside other]

theorem Reordered.taken (alike : Reordered named other) : Taken schema named ↔ Taken schema other := by
  simp only [Taken, alike.mem]

theorem Reordered.holding (alike : Reordered named other) : holding schema named = holding schema other := by
  have last : ∀ name, lastGiven? name named = lastGiven? name other := fun name => by
    rw [← lastGiven_filter, alike name, lastGiven_filter]
  simp only [Node.holding, last]

theorem setAt_named (distinct : (n.schema.fields.map Field.name).Nodup) {index : Nat} {f : Field} {v : Value}
    (place : n.schema.fields[index]? = some f) : n.setAt index v = n.set f.name v := by
  rw [set, indexOf, fieldIndex_place distinct place]
  rfl

theorem setAll_named (before : List Field) {rest : List Field} {values : List Value}
    (distinct : (n.schema.fields.map Field.name).Nodup) (split : n.schema.fields = before ++ rest)
    (sized : values.length = rest.length) :
    n.setAll before.length values = n.setNamed ((rest.map Field.name).zip values) := by
  induction values generalizing n before rest with
  | nil =>
    rw [List.zip_nil_right]
    rfl
  | cons v values ih =>
    cases rest with
    | nil => cases sized
    | cons f rest =>
      have place : n.schema.fields[before.length]? = some f := by simp [split]
      rw [setAll, setAt_named distinct place, List.map_cons, List.zip_cons_cons, setNamed]
      cases first : n.set f.name v with
      | error e => rfl
      | ok middle =>
        have same := set_schema first
        have later := ih (n := middle) (before ++ [f]) (same ▸ distinct) (by rw [same, split]; simp)
          (Nat.succ.inj sized)
        rw [List.length_append] at later
        exact later

theorem ofValues_named (distinct : (schema.fields.map Field.name).Nodup) {values : List Value}
    (sized : values.length = schema.fields.length) :
    ofValues schema values = ofFields schema ((schema.fields.map Field.name).zip values) := by
  have fits : ¬ ((!values.isEmpty && values.length != schema.fields.length) = true) := by simp [sized]
  have same : (empty schema).setAll 0 values = (empty schema).setNamed ((schema.fields.map Field.name).zip values) :=
    setAll_named (n := empty schema) [] distinct rfl sized
  rw [ofValues, make, if_neg fits, ofFields_setNamed, ← same]
  cases (empty schema).setAll 0 values <;> rfl

-- However a node is built from a schema: one value for each field gives the same by position and by name, and so
-- does the same error; names give a node just when each is that of a field that takes the value, and it is the one
-- that holds for each field what came last for it; so what comes under different names may come in any order.
theorem construction_alike (built : schema.Built) :
    (∀ values, values.length = schema.fields.length →
      ofValues schema values = ofFields schema ((schema.fields.map Field.name).zip values)) ∧
    (∀ named n, ofFields schema named = .ok n ↔ Taken schema named ∧ n = holding schema named) ∧
    ∀ named other, Reordered named other → ∀ n, ofFields schema named = .ok n ↔ ofFields schema other = .ok n := by
  have distinct := built.distinct
  refine ⟨fun values sized => ofValues_named distinct sized, fun named n => ofFields_exact distinct,
    fun named other alike n => ?_⟩
  rw [ofFields_exact distinct, ofFields_exact distinct, alike.taken, alike.holding]

-- A kind with a field of its parent and two of its own, and two orders of names that come twice.
def located : Schema := ⟨"Located", none, [⟨"line", .int, .required⟩], 0, 0⟩

def noted : Schema :=
  ⟨"Noted", some located,
    [⟨"line", .int, .required⟩, ⟨"note", .string, .optional⟩, ⟨"tags", .string, .zeroOrMore⟩], 1, 0⟩

theorem noted_built : noted.Built := by
  have parent : Schema.root 0 "Located" [⟨"line", .int, .required⟩] = .ok located := rfl
  have own : Schema.derived 0 "Noted" located [⟨"note", .string, .optional⟩, ⟨"tags", .string, .zeroOrMore⟩] =
    .ok noted := rfl
  exact .derived (.root parent) own

def byTurns : List (String × Value) :=
  [("line", .int 1), ("note", .str "seen"), ("line", .int 3), ("note", .none)]

def byName : List (String × Value) :=
  [("note", .str "seen"), ("note", .none), ("line", .int 1), ("line", .int 3)]

theorem byTurns_reordered : Reordered byTurns byName := by
  intro name
  by_cases line : "line" = name
  · subst line
    rfl
  by_cases note : "note" = name
  · subst note
    rfl
  simp [byTurns, byName, line, note]

theorem noted_alike : noted.Built ∧
    ofValues noted [.int 3, .none, .list [.str "a"]] =
      ofFields noted [("line", .int 3), ("note", .none), ("tags", .list [.str "a"])] ∧
    Reordered byTurns byName ∧ Taken noted byName ∧
    ofFields noted byName = .ok (.mk noted [.value (.int 3), .explicitNone, .unset]) := by
  obtain ⟨positions, exact, order⟩ := construction_alike noted_built
  have made : ofFields noted byName = .ok (.mk noted [.value (.int 3), .explicitNone, .unset]) :=
    (order byTurns byName byTurns_reordered _).mp rfl
  exact ⟨noted_built, positions [.int 3, .none, .list [.str "a"]] rfl, byTurns_reordered,
    ((exact byName _).mp made).1, made⟩

end Node

end TreeLowering
