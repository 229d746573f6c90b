import TreeLowering.Proofs.TypeCheck
import TreeLowering.Proofs.Reader
import TreeLowering.Proofs.Embedding

namespace TreeLowering

mutual
-- No floating-point number and no complex one at any depth.
def Value.discrete : Value → Bool
  | .float _ | .complex _ => false
  | .list items | .tuple items => Value.allDiscrete items
  | .node n => n.discrete
  | _ => true
termination_by structural v => v

def Value.allDiscrete : List Value → Bool
  | [] => true
  | v :: rest => v.discrete && Value.allDiscrete rest
termination_by structural vs => vs

def Slot.discrete : Slot → Bool
  | .value v => v.discrete
  | _ => true
termination_by structural s => s

def Slot.allDiscrete : List Slot → Bool
  | [] => true
  | s :: rest => s.discrete && Slot.allDiscrete rest
termination_by structural ss => ss

def Node.discrete : Node → Bool
  | .mk _ slots => Slot.allDiscrete slots
termination_by structural n => n
end

theorem Value.allDiscrete_all {items : List Value} : Value.allDiscrete items = items.all Value.discrete := by
  induction items with
  | nil => rfl
  | cons v rest ih => rw [allDiscrete, ih, List.all_cons]

theorem Slot.allDiscrete_all {slots : List Slot} : Slot.allDiscrete slots = slots.all Slot.discrete := by
  induction slots with
  | nil => rfl
  | cons s rest ih => rw [allDiscrete, ih, List.all_cons]

-- A registry whose kinds and fields are told apart by names that are identifiers.
structure Registry.Legible (r : Registry) : Prop where
  get : ∀ s ∈ r.schemas, r.get? s.kind = some s
  kinds : ∀ s ∈ r.schemas, Text.isIdentifier s.kind = true
  fields : ∀ s ∈ r.schemas, ∀ f ∈ s.fields, Text.isIdentifier f.name = true
  distinct : ∀ s ∈ r.schemas, (s.fields.map Field.name).Nodup

namespace Reading

open Text (isIdentifier continuesIdentifier)

theorem given_mem {fs : List Field} {ss : List Slot} {name : String} {v : Value} (member : (name, v) ∈ given fs ss) :
    (∃ f ∈ fs, f.name = name) ∧ ∃ s ∈ ss, shown? s = some v := by
  induction fs generalizing ss with
  | nil => cases ss <;> cases member
  | cons f fs ih =>
    cases ss with
    | nil => cases member
    | cons s ss =>
      rcases List.mem_append.mp member with here | later
      · obtain ⟨u, found, same⟩ := Option.map_eq_some_iff.mp (Option.mem_toList.mp here)
        cases same
        exact ⟨⟨f, List.mem_cons_self .., rfl⟩, s, List.mem_cons_self .., found⟩
      · obtain ⟨⟨g, inside, same⟩, t, held, found⟩ := ih later
        exact ⟨⟨g, List.mem_cons_of_mem _ inside, same⟩, t, List.mem_cons_of_mem _ held, found⟩

theorem slotOf_shown {r : Registry} {f : Field} {s : Slot} (typed : s.Typed r f) : slotOf f (shown? s) = s := by
  cases s with
  | unset => rfl
  | explicitNone => exact if_pos typed
  | value v =>
    cases v with
    | none =>
      refine if_neg fun optional => ?_
      have fits := typed.1
      rw [Field.Fits, optional] at fits
      cases fits.1
    | _ => rfl

theorem given_slots {r : Registry} {fs : List Field} {ss : List Slot} (distinct : (fs.map Field.name).Nodup)
    (typed : Slot.AllTyped r fs ss) : (fs.map fun f => slotOf f ((given fs ss).lookup f.name)) = ss := by
  induction fs generalizing ss with
  | nil =>
    cases ss with
    | nil => rfl
    | cons s ss => exact typed.elim
  | cons f fs ih =>
    cases ss with
    | nil => exact typed.elim
    | cons s ss =>
      obtain ⟨fresh, others⟩ := List.nodup_cons.mp distinct
      have absent : (given fs ss).lookup f.name = none := by
        refine List.lookup_eq_none_iff.mpr fun named member => ?_
        obtain ⟨⟨g, inside, same⟩, -⟩ := given_mem member
        have other : f.name ≠ g.name := fun equal => fresh (equal ▸ List.mem_map_of_mem inside)
        simpa [← same] using other
      have own : (given (f :: fs) (s :: ss)).lookup f.name = shown? s := by
        cases here : shown? s <;> simp [given, here, absent]
      have rest : ∀ g ∈ fs, (given (f :: fs) (s :: ss)).lookup g.name = (given fs ss).lookup g.name := by
        intro g inside
        have other : g.name ≠ f.name := fun equal => fresh (equal ▸ List.mem_map_of_mem inside)
        have apart : (g.name == f.name) = false := beq_eq_false_iff_ne.mpr other
        cases here : shown? s <;> simp [given, here, List.lookup_cons, apart]
      rw [List.map_cons, own, slotOf_shown typed.1]
      refine congrArg (s :: ·) ((List.map_congr_left fun g inside => ?_).trans (ih others typed.2))
      rw [rest g inside]

theorem value_opens {r : Registry} (legible : r.Legible) {v : Value} (typed : v.WellTyped r)
    (discrete : v.discrete = true) : Opens v.chars := by
  cases v with
  | none => exact ⟨_, _, rfl, by decide, by decide⟩
  | bool b => cases b <;> exact ⟨_, _, rfl, by decide, by decide⟩
  | int n =>
    obtain ⟨c, cs, shape, numeric⟩ := int_start n.toInt
    obtain ⟨-, -, round, square, -⟩ := inNumber_start (numeric c (List.mem_cons_self ..))
    exact ⟨c, cs, shape, round, square⟩
  | float x => cases discrete
  | complex z => cases discrete
  | str s =>
    obtain ⟨quote, body, marks, shape, -⟩ := Text.literal_read s []
    rw [List.append_nil] at shape
    refine ⟨quote, body, shape, ?_, ?_⟩ <;> (rintro rfl; cases marks)
  | bytes bs => exact ⟨_, _, rfl, by decide, by decide⟩
  | list items => exact ⟨_, _, rfl, by decide, by decide⟩
  | tuple items =>
    rcases items with _ | ⟨v, _ | ⟨w, rest⟩⟩ <;> exact ⟨_, _, rfl, by decide, by decide⟩
  | node n =>
    cases n with
    | mk schema slots => exact identifier_opens (legible.kinds schema typed.1) _

theorem field_opens {name : String} {v : Value} (identifier : isIdentifier name = true) :
    Opens (fieldChars (name, v)) := identifier_opens identifier _

section Values

variable {r : Registry} {fuel : Nat}

theorem field_read {name : String} {v : Value} (identifier : isIdentifier name = true) (reads : Reads r fuel v)
    (rest : List Char) (closes : Closes rest) :
    field? (value? r fuel) (fieldChars (name, v) ++ rest) = some ((name, v), rest) := by
  have shape : fieldChars (name, v) ++ rest = name.toList ++ '=' :: (v.chars ++ rest) := by simp [fieldChars]
  have stops : ∀ c ∈ ('=' :: (v.chars ++ rest)).head?, continuesIdentifier c = false :=
    fun c first => Option.some.inj first ▸ rfl
  obtain ⟨before, behind⟩ := identifier_split identifier stops
  rw [shape, field?, before, behind]
  simp [reads rest closes]

theorem items_read {close : Char} (bracket : close = ')' ∨ close = ']') (legible : r.Legible) {items : List Value}
    (typed : Value.AllTyped r items) (discrete : Value.allDiscrete items = true)
    (reads : ∀ v ∈ items, Reads r fuel v) (shorter : (joined Value.chars items).length < fuel) (rest : List Char) :
    elements? close (value? r fuel) fuel (joined Value.chars items ++ close :: rest) = some (items, rest) := by
  rw [Value.allDiscrete_all, List.all_eq_true] at discrete
  have opens : ∀ v ∈ items, Opens v.chars := fun v member =>
    value_opens legible (Value.allTyped_mem.mp typed v member) (discrete v member)
  exact elements_joined bracket opens reads (Nat.lt_of_le_of_lt (joined_length opens) shorter) rest

theorem list_read {items : List Value} {fuel : Nat}
    (read : ∀ rest, elements? ']' (value? r fuel) fuel (joined Value.chars items ++ ']' :: rest) = some (items, rest)) :
    Reads r (fuel + 1) (.list items) := by
  intro rest _
  have shape : (Value.list items).chars ++ rest = '[' :: (joined Value.chars items ++ ']' :: rest) := by
    simp [Value.chars, listChars_joined]
  rw [shape, value?, if_pos rfl, read rest]
  rfl

theorem single_read {v : Value} (opens : Opens v.chars) (reads : Reads r (fuel + 2) v) (rest : List Char) :
    elements? ')' (value? r (fuel + 2)) (fuel + 2) (v.chars ++ ',' :: ')' :: rest) = some ([v], rest) :=
  elements_cons (.inl rfl) opens (reads _ (closes_comma _)) (elements_close fuel rest)

theorem tuple_read (legible : r.Legible) {items : List Value} (typed : Value.AllTyped r items)
    (discrete : Value.allDiscrete items = true) (reads : ∀ v ∈ items, Reads r fuel v)
    (shorter : (Value.tuple items).chars.length ≤ fuel + 1) : Reads r (fuel + 1) (.tuple items) := by
  intro rest _
  rw [tuple_chars, List.length_cons, List.length_append] at shorter
  have read : elements? ')' (value? r fuel) fuel
      (joined Value.chars items ++ (if items.length = 1 then [',', ')'] else [')']) ++ rest) = some (items, rest) := by
    split
    next one =>
      obtain ⟨v, rfl⟩ := List.length_eq_one_iff.mp one
      have opens := value_opens legible typed.1 (by simpa [Value.allDiscrete] using discrete)
      obtain ⟨fuel, rfl⟩ : ∃ less, fuel = less + 2 := ⟨fuel - 2, by simp at shorter; omega⟩
      simpa [joined] using single_read opens (reads v (List.mem_singleton_self v)) rest
    next several =>
      rw [if_neg several] at shorter
      rw [List.append_assoc]
      exact items_read (.inl rfl) legible typed discrete reads (Nat.lt_of_succ_le (by simpa using shorter)) rest
  rw [tuple_chars, List.cons_append, value?, if_neg (by decide), if_pos rfl, read]
  rfl

-- The fields of a node are read by their names, so those that were not printed are unset.
theorem node_read (legible : r.Legible) {schema : Schema} {slots : List Slot}
    (typed : (Node.mk schema slots).WellTyped r) (reads : ∀ s ∈ slots, ∀ v, shown? s = some v → Reads r fuel v)
    (shorter : (Node.mk schema slots).chars.length ≤ fuel + 1) : Reads r (fuel + 1) (.node (.mk schema slots)) := by
  intro rest _
  obtain ⟨known, held⟩ := typed
  have identifiers : ∀ named ∈ given schema.fields slots, isIdentifier named.1 = true := by
    intro named member
    obtain ⟨⟨f, inside, same⟩, -⟩ := given_mem member
    exact same ▸ legible.fields schema known f inside
  have shape : (Node.mk schema slots).chars = schema.kind.toList ++
      '(' :: (joined fieldChars (given schema.fields slots) ++ [')']) := by
    rw [Node.chars, (listChars_given _ _).1]
  have enough : (given schema.fields slots).length < fuel := by
    have count : (given schema.fields slots).length ≤ (joined fieldChars (given schema.fields slots)).length :=
      joined_length fun named member => field_opens (identifiers named member)
    obtain ⟨c, cs, start, -⟩ := identifier_start (legible.kinds schema known)
    rw [shape, start, List.length_append, List.length_cons, List.length_cons, List.length_append] at shorter
    simp at shorter
    omega
  have fields : elements? ')' (field? (value? r fuel)) fuel
      (joined fieldChars (given schema.fields slots) ++ ')' :: rest) = some (given schema.fields slots, rest) := by
    refine elements_joined (.inl rfl) (fun named member => field_opens (identifiers named member))
      (fun named member behind closes => ?_) enough rest
    obtain ⟨-, s, inside, found⟩ := given_mem member
    exact field_read (identifiers named member) (reads s inside named.2 found) behind closes
  have stops : ∀ c ∈ ('(' :: (joined fieldChars (given schema.fields slots) ++ ')' :: rest)).head?,
      continuesIdentifier c = false := fun c first => Option.some.inj first ▸ rfl
  change value? r (fuel + 1) ((Node.mk schema slots).chars ++ rest) = _
  rw [shape, List.append_assoc, List.cons_append, List.append_assoc, List.singleton_append,
    value_worded (legible.kinds schema known) stops]
  simp [worded?, legible.get schema known, fields, nodeOf, given_slots (legible.distinct schema known) held]

theorem element_shorter {items : List Value} {v : Value} (member : v ∈ items) :
    v.chars.length < (Value.list items).chars.length ∧ v.chars.length < (Value.tuple items).chars.length := by
  have part : v.chars.length ≤ (joined Value.chars items).length := joined_mem member
  rw [tuple_chars, Value.chars, listChars_joined, List.length_cons, List.length_cons, List.length_append,
    List.length_append]
  omega

theorem given_shown {fs : List Field} {ss : List Slot} {s : Slot} {v : Value} (sized : ss.length = fs.length)
    (member : s ∈ ss) (found : shown? s = some v) : ∃ name, (name, v) ∈ given fs ss := by
  induction fs generalizing ss with
  | nil =>
    cases List.eq_nil_of_length_eq_zero sized
    cases member
  | cons f fs ih =>
    cases ss with
    | nil => cases member
    | cons t ss =>
      rcases List.mem_cons.mp member with rfl | later
      · exact ⟨f.name, List.mem_append_left _ (by simp [found])⟩
      · obtain ⟨name, inside⟩ := ih (Nat.succ.inj sized) later
        exact ⟨name, List.mem_append_right _ inside⟩

theorem shown_shorter {n : Node} {s : Slot} {v : Value} (sized : n.Sized) (member : s ∈ n.slots)
    (found : shown? s = some v) : v.chars.length < n.chars.length := by
  cases n with
  | mk schema slots =>
    obtain ⟨name, inside⟩ := given_shown sized member found
    have part : (fieldChars (name, v)).length ≤ (joined fieldChars (given schema.fields slots)).length :=
      joined_mem inside
    have within : v.chars.length < (fieldChars (name, v)).length := by
      simp [fieldChars]
      omega
    rw [Node.chars, (listChars_given _ _).1, List.length_append, List.length_cons, List.length_append]
    omega

theorem shown_typed {n : Node} {s : Slot} {v : Value} (typed : n.WellTyped r) (member : s ∈ n.slots)
    (found : shown? s = some v) : v.WellTyped r := by
  obtain ⟨-, sized, slots⟩ := Node.wellTyped_index.mp typed
  obtain ⟨index, place⟩ := List.getElem?_of_mem member
  have bound : index < n.schema.fields.length := sized ▸ (List.getElem?_eq_some_iff.mp place).1
  have held := slots index _ s (List.getElem?_eq_getElem bound) place
  cases s with
  | unset => cases found
  | explicitNone =>
    cases found
    trivial
  | value w =>
    cases found
    exact held.2

theorem shown_discrete {n : Node} {s : Slot} {v : Value} (discrete : n.discrete = true) (member : s ∈ n.slots)
    (found : shown? s = some v) : v.discrete = true := by
  cases n with
  | mk schema slots =>
    rw [Node.discrete, Slot.allDiscrete_all, List.all_eq_true] at discrete
    have held := discrete s member
    cases s with
    | unset => cases found
    | explicitNone =>
      cases found
      rfl
    | value w =>
      cases found
      exact held

-- Every value is read back with as much fuel as its text is long. The fuel is all that the induction is on: the
-- texts of the parts are shorter.
theorem value_read (legible : r.Legible) (fuel : Nat) {v : Value} (typed : v.WellTyped r)
    (discrete : v.discrete = true) (shorter : v.chars.length ≤ fuel) : Reads r fuel v := by
  induction fuel generalizing v with
  | zero =>
    obtain ⟨c, cs, shape, -⟩ := value_opens legible typed discrete
    rw [shape] at shorter
    exact absurd shorter (Nat.not_succ_le_zero _)
  | succ fuel ih =>
    have elements : ∀ items : List Value, Value.AllTyped r items → Value.allDiscrete items = true →
        (∀ w ∈ items, w.chars.length < fuel + 1) → ∀ w ∈ items, Reads r fuel w := by
      intro items typed discrete shorter w member
      rw [Value.allDiscrete_all, List.all_eq_true] at discrete
      exact ih (Value.allTyped_mem.mp typed w member) (discrete w member) (Nat.le_of_lt_succ (shorter w member))
    cases v with
    | none => exact constant_read (show isIdentifier "None" = true by decide) rfl rfl
    | bool b =>
      cases b with
      | false => exact constant_read (show isIdentifier "False" = true by decide) rfl rfl
      | true => exact constant_read (show isIdentifier "True" = true by decide) rfl rfl
    | int n => exact int_read n
    | float x => cases discrete
    | complex z => cases discrete
    | str s => exact str_read s
    | bytes bs => exact bytes_read bs
    | list items =>
      have reads := elements items typed discrete fun w member =>
        Nat.lt_of_lt_of_le (element_shorter member).1 shorter
      refine list_read fun rest => items_read (.inr rfl) legible typed discrete reads ?_ rest
      rw [Value.chars, listChars_joined, List.length_cons, List.length_append] at shorter
      exact Nat.lt_of_succ_le (Nat.le_of_succ_le_succ shorter)
    | tuple items =>
      have reads := elements items typed discrete fun w member =>
        Nat.lt_of_lt_of_le (element_shorter member).2 shorter
      exact tuple_read legible typed discrete reads shorter
    | node n =>
      cases n with
      | mk schema slots =>
        refine node_read legible typed (fun s member w found => ?_) shorter
        have part := shown_shorter typed.sized member found
        exact ih (shown_typed typed member found) (shown_discrete discrete member found)
          (Nat.le_of_lt_succ (Nat.lt_of_lt_of_le part shorter))

end Values

end Reading

namespace Node

variable {r : Registry} {n m : Node}

theorem read_render (legible : r.Legible) (typed : n.WellTyped r) (discrete : n.discrete = true) :
    read? r n.render = some n := by
  have read := Reading.value_read legible n.chars.length (v := .node n) typed discrete (Nat.le_refl _) []
    Reading.closes_nil
  rw [List.append_nil] at read
  rw [Value.chars] at read
  unfold read? render
  rw [String.toList_ofList, read]

end Node

mutual
-- Without floating-point numbers a tree is equal to itself.
theorem Value.equals_self (v : Value) (discrete : v.discrete = true) : v.equals v = true := by
  cases v with
  | float x => cases discrete
  | complex z => cases discrete
  | list items => exact Value.allEqual_self items discrete
  | tuple items => exact Value.allEqual_self items discrete
  | node n => exact Node.equals_self n discrete
  | _ => simp [Value.equals]
termination_by structural v

theorem Value.allEqual_self (items : List Value) (discrete : Value.allDiscrete items = true) :
    Value.allEqual items items = true := by
  cases items with
  | nil => rfl
  | cons v rest =>
    obtain ⟨first, others⟩ := Bool.and_eq_true_iff.mp discrete
    exact Bool.and_eq_true_iff.mpr ⟨Value.equals_self v first, Value.allEqual_self rest others⟩
termination_by structural items

theorem Slot.equals_self (s : Slot) (discrete : s.discrete = true) : s.equals s = true := by
  cases s with
  | value v => exact Value.equals_self v discrete
  | _ => rfl
termination_by structural s

theorem Slot.allEqual_self (slots : List Slot) (discrete : Slot.allDiscrete slots = true) :
    Slot.allEqual slots slots = true := by
  cases slots with
  | nil => rfl
  | cons s rest =>
    obtain ⟨first, others⟩ := Bool.and_eq_true_iff.mp discrete
    exact Bool.and_eq_true_iff.mpr ⟨Slot.equals_self s first, Slot.allEqual_self rest others⟩
termination_by structural slots

theorem Node.equals_self (n : Node) (discrete : n.discrete = true) : n.equals n = true := by
  cases n with
  | mk schema slots =>
    have same : schema.same schema = true := by simp [Schema.same]
    exact Bool.and_eq_true_iff.mpr ⟨same, Slot.allEqual_self slots discrete⟩
termination_by structural n
end

theorem core_identifiers : coreRegistry.schemas.all (fun s => Text.isIdentifier s.kind &&
    s.fields.all fun f => Text.isIdentifier f.name) = true := by
  decide +kernel

theorem core_legible : coreRegistry.Legible := by
  have identifiers : ∀ s ∈ coreRegistry.schemas, Text.isIdentifier s.kind = true ∧
      ∀ f ∈ s.fields, Text.isIdentifier f.name = true := by
    intro s member
    obtain ⟨kind, fields⟩ := Bool.and_eq_true_iff.mp (List.all_eq_true.mp core_identifiers s member)
    exact ⟨kind, List.all_eq_true.mp fields⟩
  exact ⟨fun s member => core_get member, fun s member => (identifiers s member).1,
    fun s member => (identifiers s member).2, fun s member => (core_written member).1⟩

namespace Node

-- Trees over the Python kinds that are printed alike are the same tree.
theorem render_unique {n m : Node} (first : n.WellTyped coreRegistry) (second : m.WellTyped coreRegistry)
    (discrete : n.discrete = true) (alsoDiscrete : m.discrete = true) (alike : n.render = m.render) :
    n = m ∧ n.equals m = true := by
  have read := read_render core_legible first discrete
  rw [alike, read_render core_legible second alsoDiscrete] at read
  obtain rfl := Option.some.inj read
  exact ⟨rfl, m.equals_self alsoDiscrete⟩

def imports : Schema := Core.statement "ImportFrom" [⟨"module", .string, .optional⟩,
  ⟨"names", .kind "alias", .oneOrMore⟩, ⟨"level", .int, .optional⟩]

def aliased : Schema :=
  ⟨"alias", some Core.ast, [⟨"name", .string, .required⟩, ⟨"asname", .identifier, .optional⟩], 0, 0⟩

def quotedImport : Node :=
  .mk imports [.unset, .value (.list [.node (.mk aliased [.value (.str "it's)], level=0"), .explicitNone])]),
    .explicitNone]

def importedFromBehind : Node :=
  ((empty imports).put 2 .explicitNone).put 1
    (.value (.list [.node (((empty aliased).put 1 .explicitNone).put 0 (.value (.str "it's)], level=0")))]))

theorem quotedImport_typed : quotedImport.WellTyped coreRegistry := core_typed (by decide +kernel)

theorem quotedImport_unique : importedFromBehind = quotedImport ∧ importedFromBehind.equals quotedImport = true :=
  render_unique quotedImport_typed quotedImport_typed rfl rfl rfl

end Node

end TreeLowering

