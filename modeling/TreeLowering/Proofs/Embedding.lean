import TreeLowering.Proofs.SilentLoss
import TreeLowering.Proofs.Missing
import TreeLowering.Proofs.Pipeline

namespace TreeLowering

section Written

-- Source lines for the native nodes.
variable (lines : Node → Option UInt32)

mutual
def Node.embed : Node → Native.Node
  | .mk schema slots => .mk schema.kind (lines (.mk schema slots)) (Slot.embedAll schema.fields slots)
termination_by structural n => n

-- What is unset is left out; an explicit "no value" is an absent value.
def Slot.embedAll : List Field → List Slot → List (String × Native.Value)
  | f :: fs, s :: ss =>
    match s with
    | .unset => Slot.embedAll fs ss
    | .explicitNone => (f.name, .none) :: Slot.embedAll fs ss
    | .value v => (f.name, v.embed) :: Slot.embedAll fs ss
  | _, _ => []
termination_by structural _ ss => ss

-- A native tree has one form of sequence only.
def Value.embed : Value → Native.Value
  | .none => .none
  | .bool b => .bool b
  | .int n => .int n
  | .float x => .float x
  | .complex z => .complex z
  | .str s => .str s
  | .bytes bs => .bytes bs
  | .list items => .list (Value.embedAll items)
  | .tuple items => .list (Value.embedAll items)
  | .node n => .node n.embed
termination_by structural v => v

def Value.embedAll : List Value → List Native.Value
  | [] => []
  | v :: rest => v.embed :: Value.embedAll rest
termination_by structural vs => vs
end

end Written

def Slot.given? : Slot → Option Value
  | .unset => none
  | .explicitNone => some .none
  | .value v => some v

def Node.given (n : Node) : List (String × Value) := n.fields.filterMap fun f => f.2.given?.map (f.1.name, ·)

variable {lines : Node → Option UInt32} {n : Node}

theorem Slot.embedAll_given (fs : List Field) (ss : List Slot) : Slot.embedAll lines fs ss =
    (fs.zip ss).filterMap fun f => f.2.given?.map fun v => (f.1.name, v.embed lines) := by
  induction ss generalizing fs with
  | nil => cases fs <;> rfl
  | cons s rest ih =>
    cases fs with
    | nil => rfl
    | cons f fs =>
      rw [List.zip_cons_cons, List.filterMap_cons]
      cases s <;> simp [Slot.embedAll, Slot.given?, Value.embed, ih]

theorem Node.embed_fields : (n.embed lines).fields =
    n.given.map fun f => (f.1, f.2.embed lines) := by
  obtain ⟨schema, slots⟩ := n
  rw [Node.given, List.map_filterMap]
  refine (Slot.embedAll_given schema.fields slots).trans (List.filterMap_congr fun f _ => ?_)
  cases f.2.given? <;> rfl

theorem Node.embed_kind : (n.embed lines).kind = n.kind := by
  cases n
  rfl

theorem Node.setNamed_given {r : Registry} {schema : Schema} (distinct : (schema.fields.map Field.name).Nodup)
    (before : List Field) {after : List Field} (done : List Slot) {rest : List Slot} (fields : schema.fields = before ++ after)
    (sized : done.length = before.length) (typed : Slot.AllTyped r after rest) :
    (Node.mk schema (done ++ List.replicate rest.length .unset)).setNamed
      ((after.zip rest).filterMap fun f => f.2.given?.map (f.1.name, ·)) = .ok (.mk schema (done ++ rest)) := by
  induction after generalizing before done rest with
  | nil =>
    cases Slot.allTyped_nil typed
    rfl
  | cons f fs ih =>
    obtain ⟨s, rest, rfl, first, others⟩ := Slot.allTyped_cons typed
    have later := ih (before ++ [f]) (done ++ [s]) (by simp [fields]) (by simp [sized]) others
    rw [List.append_assoc, List.append_assoc] at later
    have place : schema.fields[done.length]? = some f := by simp [fields, sized]
    have found := fieldIndex_place distinct place
    rw [List.zip_cons_cons, List.filterMap_cons]
    have assigned : ∀ v, f.assign schema.kind v = .ok s →
        (Node.mk schema (done ++ List.replicate (rest.length + 1) .unset)).set f.name v =
          .ok (.mk schema (done ++ ([s] ++ List.replicate rest.length .unset))) := by
      intro v stored
      refine set_exact.mpr ⟨done.length, f, s, found, place, stored, ?_⟩
      simp [Node.put, Node.schema, Node.slots, List.replicate_succ]
    cases s with
    | unset => exact later
    | explicitNone =>
      have stored : f.assign schema.kind .none = .ok .explicitNone := Field.assign_exact.mpr (.inl ⟨first, rfl, rfl⟩)
      exact setNamed_cons.mpr ⟨_, assigned .none stored, later⟩
    | value v => exact setNamed_cons.mpr ⟨_, assigned v (Field.assign_value.mpr first.1), later⟩

theorem Node.ofFields_given {r : Registry} (typed : n.WellTyped r)
    (distinct : (n.schema.fields.map Field.name).Nodup) : Node.ofFields n.schema n.given = .ok n := by
  obtain ⟨schema, slots⟩ := n
  have sized : slots.length = schema.fields.length := typed.sized
  have made := setNamed_given distinct [] [] rfl rfl typed.2
  rw [sized] at made
  exact made

theorem Node.given_slot {r : Registry} {name : String} {v : Value} (typed : n.WellTyped r)
    (distinct : (n.schema.fields.map Field.name).Nodup) (given : (name, v) ∈ n.given) :
    ∃ f ∈ n.schema.fields, f.name = name ∧ ∃ s, n.slot? name = some s ∧ s.Typed r f ∧ s.given? = some v := by
  rw [Node.given, Node.fields_named typed.sized distinct, List.filterMap_map, List.mem_filterMap] at given
  obtain ⟨f, field, same⟩ := given
  obtain ⟨index, place⟩ := List.getElem?_of_mem field
  have held : ((n.slot? f.name).getD .unset).given?.map (f.name, ·) = some (name, v) := same
  cases slot : n.slot? f.name with
  | none =>
    rw [slot] at held
    cases held
  | some s =>
    rw [slot, Option.getD_some] at held
    obtain ⟨w, given, pair⟩ := Option.map_eq_some_iff.mp held
    cases pair
    have found := slot
    rw [Node.slot?, fieldIndex_place distinct place] at found
    exact ⟨f, field, rfl, s, slot, (wellTyped_index.mp typed).2.2 index f s place found, given⟩

-- Names tell the fields of a kind apart, and every field can be assigned by its name. The kinds of numbers and
-- constants of other versions are none of the kinds of a tree, and neither are wrappers.
theorem core_writable : coreRegistry.schemas.all (fun s => decide ((s.fields.map Field.name).Nodup) &&
    s.fields.all (fun f => (s.resolve? f.name).isSome) && !(["Num", "Constant", "Index"].contains s.kind)) = true := by
  decide +kernel

theorem core_written {s : Schema} (member : s ∈ coreRegistry.schemas) : (s.fields.map Field.name).Nodup ∧
    (∀ f ∈ s.fields, (s.resolve? f.name).isSome) ∧ s.kind ∉ ["Num", "Constant", "Index"] := by
  have writable := List.all_eq_true.mp core_writable s member
  simpa [and_assoc] using writable

theorem core_get {s : Schema} (member : s ∈ coreRegistry.schemas) : coreRegistry.get? s.kind = some s := by
  cases found : coreRegistry.get? s.kind with
  | none => exact absurd (beq_self_eq_true s.kind) (List.find?_eq_none.mp found s member)
  | some other =>
    have same : other.kind = s.kind := by simpa using List.find?_some found
    rw [core_unique (Registry.get_member found) member same]

namespace Translator

-- Not a sequence in the form that native trees do not have.
def listed : Slot → Bool
  | .value (.tuple _) => false
  | _ => true

-- A node that no handler would make something else of, with sequences that come back as they are.
structure Writable (n : Node) : Prop where
  listed (s : Slot) : s ∈ n.slots → listed s = true
  named : n.kind = "Name" → n.textAt? "id" ∉ [some "True", some "False", some "None"]
  imported : n.kind = "ImportFrom" → n.textAt? "module" ≠ some futureModule

instance (n : Node) : Decidable (Writable n) :=
  decidable_of_iff ((∀ s ∈ n.slots, listed s = true) ∧
    (n.kind = "Name" → n.textAt? "id" ∉ [some "True", some "False", some "None"]) ∧
    (n.kind = "ImportFrom" → n.textAt? "module" ≠ some futureModule))
    ⟨fun ⟨listed, named, imported⟩ => ⟨listed, named, imported⟩,
      fun writable => ⟨writable.listed, writable.named, writable.imported⟩⟩

-- A conversion without complaint that gives back what was written.
def Returns {α : Type} (c : Converting (Option α)) (a : α) : Prop := answer c = some a ∧ messages c = []

section Conversion

variable {t : Translator} {line : Option UInt32}

theorem items_return {items : List Value}
    (each : ∀ v ∈ items, Returns (t.convertValue line (v.embed lines)) v) :
    Returns (t.convertItems line (Value.embedAll lines items)) items := by
  induction items with
  | nil => exact ⟨rfl, rfl⟩
  | cons v rest ih =>
    rw [List.forall_mem_cons] at each
    obtain ⟨first, quiet⟩ := each.1
    obtain ⟨others, quietRest⟩ := ih each.2
    rw [Value.embedAll]
    obtain ⟨found, said⟩ := convertItems_cons t line (v.embed lines) (Value.embedAll lines rest)
    refine ⟨?_, ?_⟩
    · rw [found, first, others]
      rfl
    · rw [said, quiet, quietRest]
      rfl

theorem value_returns {f : Field} {v : Value} (plain : f.Plain) (fits : f.Fits v) (form : listed (.value v) = true)
    (below : ∀ child ∈ v.children, Returns (t.convertNode (child.embed lines)) child) :
    Returns (t.convertValue line (v.embed lines)) v := by
  have ofNode : ∀ {child : Node}, Returns (t.convertNode (child.embed lines)) child →
      Returns (t.convertValue line (.node (child.embed lines))) (.node child) := by
    intro child back
    obtain ⟨found, said⟩ := convertValue_node t line (child.embed lines)
    exact ⟨by rw [found, back.1]; rfl, by rw [said, back.2]⟩
  cases v with
  | tuple items => cases form
  | node child => exact ofNode (below child (List.mem_singleton_self _))
  | list items =>
    have accepted : ∀ item ∈ items, f.type.accepts item = true := by
      cases repeated : f.cardinality.isSequence with
      | true => exact ((Field.fits_items (v := .list items) repeated rfl).mp fits).2
      | false =>
        have whole := ((Field.fits_single repeated plain.known).mp fits).2
        cases ElementType.accepts_flat plain.flat whole
    have back : Returns (t.convertItems line (Value.embedAll lines items)) items := by
      refine items_return fun item member => ?_
      have flat := ElementType.accepts_flat plain.flat (accepted item member)
      cases item with
      | node child => exact ofNode (below child (Value.mem_children.mpr (.inr ⟨items, rfl, member⟩)))
      | list _ => cases flat
      | tuple _ => cases flat
      | _ => exact ⟨rfl, rfl⟩
    obtain ⟨found, said⟩ := convertValue_list t line (Value.embedAll lines items)
    exact ⟨by rw [Value.embed, found, back.1]; rfl, by rw [Value.embed, said, back.2]⟩
  | _ => exact ⟨rfl, rfl⟩

theorem usual_returns {r : Registry} (known : r.get? n.kind = some n.schema) (typed : n.WellTyped r)
    (distinct : (n.schema.fields.map Field.name).Nodup)
    (declared : ∀ f ∈ n.schema.fields, (n.schema.resolve? f.name).isSome)
    (back : ∀ f ∈ n.given, Returns ((standard r).convertValue (n.embed lines).line (f.2.embed lines)) f.2) :
    Returns ((standard r).follow (n.embed lines) .usual) n := by
  obtain ⟨found, said⟩ := usual_built (standard r) (n.embed lines)
  have fields : answer ((standard r).convertFields (n.embed lines).line (n.embed lines).fields) = n.given := by
    rw [convertFields_answer, Node.embed_fields, List.filterMap_map]
    refine (List.filterMap_congr fun f member => ?_).trans List.filterMap_some
    simp [(back f member).1]
  have quiet : messages ((standard r).convertFields (n.embed lines).line (n.embed lines).fields) = [] := by
    rw [convertFields_messages, Node.embed_fields, List.flatMap_map, List.flatMap_eq_nil_iff]
    exact fun f member => (back f member).2
  have kept : tolerated n.schema n.given = n.given := by
    refine List.filter_eq_self.mpr fun f member => ?_
    obtain ⟨g, field, same, -⟩ := Node.given_slot typed distinct member
    rw [← same, declared g field, Bool.true_or]
  have made : answer ((standard r).build n.kind n.given (n.embed lines).line) = some n :=
    build_made.mpr ⟨n.schema, known, by rw [kept]; exact Node.ofFields_given typed distinct⟩
  have silent := build_silent (standard r) n.kind n.given (n.embed lines).line
  rw [made, Option.isNone_some] at silent
  rw [fields, Node.embed_kind] at found said
  refine ⟨found.trans made, ?_⟩
  rw [said, quiet, List.nil_append]
  simpa using silent.symm

end Conversion

theorem embed_route {r : Registry} (typed : n.WellTyped r) (distinct : (n.schema.fields.map Field.name).Nodup)
    (other : n.kind ∉ ["Num", "Constant", "Index"]) (writable : Writable n) : route (n.embed lines) = .usual := by
  -- A text under a name is the text in the slot of that name.
  have written : ∀ {name text : String}, Keyed.lookup? name (n.embed lines).fields = some (.str text) →
      n.textAt? name = some text := by
    intro name text found
    have field := lookup_mem found
    rw [Node.embed_fields, List.mem_map] at field
    obtain ⟨⟨key, v⟩, given, pair⟩ := field
    cases v <;> simp only [Value.embed, Prod.mk.injEq, reduceCtorEq, and_false] at pair
    obtain ⟨rfl, same⟩ := pair
    cases same
    obtain ⟨-, -, -, s, slot, -, held⟩ := Node.given_slot typed distinct given
    rw [Node.textAt?, Node.get?, slot]
    cases s <;> cases held
    rfl
  simp only [List.mem_cons, List.not_mem_nil, or_false, not_or] at other
  unfold route
  rw [Node.embed_kind]
  simp only [other, if_false]
  split
  next kind =>
    have named := writable.named kind
    unfold nameRoute
    cases singleton : singleton? (Keyed.lookup? "id" (n.embed lines).fields) with
    | none => rfl
    | some v =>
      exfalso
      unfold singleton? at singleton
      split at singleton
      next found => simp [written found] at named
      next found => simp [written found] at named
      next found => simp [written found] at named
      next => cases singleton
  split
  next kind =>
    unfold importRoute
    split
    next module found => exact if_neg fun future => writable.imported kind (by rw [written found, future])
    next => rfl
  · rfl

-- Translation takes a written tree back, whatever lines its nodes are said to come from.
theorem convert_embed (lines : Node → Option UInt32) {tree : Node} (typed : tree.WellTyped coreRegistry)
    (writable : ∀ n ∈ tree.visited, Writable n) :
    ((standard coreRegistry).convert (tree.embed lines)).1 = .ok tree := by
  have back : Returns ((standard coreRegistry).convertNode (tree.embed lines)) tree := by
    induction tree using Node.children_induct with
    | step n ih =>
      obtain ⟨distinct, declared, other⟩ := core_written typed.member
      have own := writable n n.self_visited
      rw [convertNode_route, embed_route typed distinct other own]
      refine usual_returns (core_get typed.member) typed distinct declared fun (name, v) member => ?_
      obtain ⟨g, field, -, s, slot, ofSlot, held⟩ := Node.given_slot typed distinct member
      cases s with
      | unset => cases held
      | explicitNone =>
        cases held
        exact ⟨rfl, rfl⟩
      | value w =>
        cases held
        obtain ⟨index, -, place⟩ := Option.bind_eq_some_iff.mp slot
        have inSlots := List.mem_of_getElem? place
        refine value_returns (core_plain n.schema typed.member g field) ofSlot.1 (own.listed _ inSlots)
          fun child inside => ?_
        have below : child ∈ n.children := Node.mem_children.mpr ⟨_, inSlots, inside⟩
        exact ih child below (Node.child_typed typed below) fun m met =>
          writable m (Node.mem_visited.mpr (.inr ⟨child, below, met⟩))
  exact convert_ok.mpr ⟨back.2, back.1⟩

theorem pollingLoop_returns : ((standard coreRegistry).convert
    (Desugarer.pollingLoop.embed fun n => some n.count.toUInt32)).1 = .ok Desugarer.pollingLoop := by
  exact convert_embed _ Desugarer.pollingLoop_typed (by decide +kernel)

end Translator

end TreeLowering
