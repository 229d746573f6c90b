import TreeLowering.Proofs.Documents
import TreeLowering.Proofs.Embedding

namespace TreeLowering

namespace Node

variable {named : List (String × Value)} {name : String}

theorem lastGiven_distinct {v : Value} (distinct : (named.map (·.1)).Nodup) (member : (name, v) ∈ named) :
    lastGiven? name named = some v := by
  induction named with
  | nil => cases member
  | cons first rest ih =>
    obtain ⟨key, w⟩ := first
    rw [List.map_cons, List.nodup_cons] at distinct
    rw [lastGiven?]
    rcases List.mem_cons.mp member with same | later
    · cases same
      have alone : lastGiven? name rest = none :=
        Translator.lastGiven_none fun g inside same => distinct.1 (List.mem_map.mpr ⟨g, inside, same⟩)
      rw [alone, if_pos rfl]
      rfl
    · rw [ih distinct.2 later]
      rfl

end Node

namespace Translator

open Native (isReserved decodeValue)

variable (r : Registry) {n : Native.Node} {made : Node} {schema : Schema} {name : String} {v : Native.Value}
  {f : Field}

theorem usual_filled (usual : route n = .usual) (converts : answer ((standard r).convertNode n) = some made) :
    ∃ schema, r.get? n.kind = some schema ∧
      Node.ofFields schema (tolerated schema (converted r n)) = .ok made := by
  rw [convertNode_route, usual, (usual_built _ n).1, convertFields_answer] at converts
  exact build_made.mp converts

theorem mem_converted {w : Value} : (name, w) ∈ converted r n ↔
    ∃ v, (name, v) ∈ n.fields ∧ answer ((standard r).convertValue n.line v) = some w := by
  unfold converted
  rw [List.mem_filterMap]
  constructor
  · intro shape
    obtain ⟨⟨key, v⟩, member, shown⟩ := shape
    obtain ⟨u, given, same⟩ := Option.map_eq_some_iff.mp shown
    cases same
    exact ⟨v, member, given⟩
  · intro shape
    obtain ⟨v, member, given⟩ := shape
    exact ⟨(name, v), member, by rw [given]; rfl⟩

theorem given_distinct (distinct : (n.fields.map (·.1)).Nodup) :
    ((tolerated schema (converted r n)).map (·.1)).Nodup := by
  refine (List.Sublist.map _ List.filter_sublist).nodup ?_
  unfold converted
  refine List.pairwise_map.mpr ((List.pairwise_map.mp distinct).filterMap _ fun a b apart p first q second => ?_)
  obtain ⟨u, -, rfl⟩ := Option.map_eq_some_iff.mp first
  obtain ⟨w, -, rfl⟩ := Option.map_eq_some_iff.mp second
  exact apart

theorem lastGiven_mem {named : List (String × Value)} {w : Value} (given : Node.lastGiven? name named = some w) :
    (name, w) ∈ named := by
  induction named with
  | nil => cases given
  | cons first rest ih =>
    obtain ⟨key, u⟩ := first
    rw [Node.lastGiven?, Option.or_eq_some_iff] at given
    rcases given with later | ⟨-, here⟩
    · exact List.mem_cons_of_mem _ (ih later)
    · split at here
      · next same =>
        cases here
        rw [same]
        exact List.mem_cons_self ..
      · cases here

-- What a field keeps of a value: that there is none, for None in an optional field, and else the value as it
-- is converted.
inductive Kept (line : Option UInt32) (f : Field) : Native.Value → Slot → Prop where
  | none (optional : f.cardinality = .optional) : Kept line f .none .explicitNone
  | value {v : Native.Value} {w : Value} (given : answer ((standard r).convertValue line v) = some w)
      (present : f.cardinality = .optional → w.isNone = false) : Kept line f v (.value w)

theorem none_given {line : Option UInt32} {w : Value} (given : answer ((standard r).convertValue line v) = some w)
    (isNone : w.isNone = true) : v = .none := by
  cases v with
  | node n =>
    rw [(convertValue_node _ _ n).1] at given
    obtain ⟨made, -, rfl⟩ := Option.map_eq_some_iff.mp given
    cases isNone
  | list items =>
    rw [(convertValue_list _ _ items).1] at given
    obtain ⟨made, -, rfl⟩ := Option.map_eq_some_iff.mp given
    cases isNone
  | none => rfl
  | _ =>
    cases given
    try cases isNone

theorem field_kept (usual : route n = .usual) (quiet : messages ((standard r).convertNode n) = [])
    (converts : answer ((standard r).convertNode n) = some made) (distinct : (n.fields.map (·.1)).Nodup)
    (member : (name, v) ∈ n.fields) (declared : made.schema.field? name = some f)
    (known : (made.schema.resolve? name).isSome) :
    (Lost v → made.slot? name = some .unset) ∧
      (¬ Lost v → ∃ s, made.slot? name = some s ∧ Kept r n.line f v s) := by
  obtain ⟨-, -, -, quietFields, -⟩ := usual_made r usual quiet
  have lost := value_lost r n.line v (convertFields_quiet _ n.line quietFields member)
  obtain ⟨schema, -, ok⟩ := usual_filled r usual converts
  rw [Node.ofFields_schema ok] at declared known
  have slots := Node.ofFields_slot ok declared
  constructor
  · intro silent
    cases given : Node.lastGiven? name (tolerated schema (converted r n)) with
    | none =>
      rw [given] at slots
      exact slots
    | some w =>
      obtain ⟨other, there, shown⟩ := (mem_converted r).mp (List.mem_filter.mp (lastGiven_mem given)).1
      cases List.inj_on_of_nodup_map distinct there member rfl
      rw [lost.mpr silent] at shown
      cases shown
  · intro kept
    cases given : answer ((standard r).convertValue n.line v) with
    | none => exact absurd (lost.mp given) kept
    | some w =>
      have inside : (name, w) ∈ tolerated schema (converted r n) :=
        List.mem_filter.mpr ⟨(mem_converted r).mpr ⟨v, member, given⟩, by rw [known]; rfl⟩
      rw [Node.lastGiven_distinct (given_distinct r distinct) inside] at slots
      obtain ⟨s, assigned, slot⟩ := slots
      refine ⟨s, slot, ?_⟩
      rcases Field.assign_exact.mp assigned with ⟨optional, isNone, rfl⟩ | ⟨fits, rfl⟩
      · cases none_given r given isNone
        exact .none optional
      · refine .value given fun optional => ?_
        unfold Field.Fits at fits
        rw [optional] at fits
        exact fits.1

theorem field_absent (usual : route n = .usual) (converts : answer ((standard r).convertNode n) = some made)
    (absent : ∀ g ∈ n.fields, g.1 ≠ name) (declared : made.schema.field? name = some f) :
    made.slot? name = some .unset := by
  obtain ⟨schema, -, ok⟩ := usual_filled r usual converts
  rw [Node.ofFields_schema ok] at declared
  have slots := Node.ofFields_slot ok declared
  have none : Node.lastGiven? name (tolerated schema (converted r n)) = none := by
    refine lastGiven_none fun g inside same => ?_
    obtain ⟨key, w⟩ := g
    obtain ⟨v, there, -⟩ := (mem_converted r).mp (List.mem_filter.mp inside).1
    exact absent _ there same
  rw [none] at slots
  exact slots

-- The nodes on the way through a tree that are not lost with a silent one beside or below them.
inductive Reaches : Native.Node → Native.Node → Prop where
  | self (n : Native.Node) : Reaches n n
  | part {n m k : Native.Node} {name : String} {v : Native.Value} (usual : route n = .usual)
      (field : (name, v) ∈ n.fields) (held : v.Holds m) (kept : ¬ Lost v) (rest : Reaches m k) : Reaches n k
  | inside {n m k : Native.Node} (wraps : route n = .wrapped m) (rest : Reaches m k) : Reaches n k

theorem reaches_visits {n m : Native.Node} (reached : Reaches n m) : Visits n m := by
  induction reached with
  | self n => exact .self n
  | part usual field held kept rest ih => exact .part usual field held ih
  | inside wraps rest ih => exact .inside wraps ih

theorem items_converted {line : Option UInt32} {items : List Native.Value} {made : List Value}
    (given : answer ((standard r).convertItems line items) = some made) :
    List.Forall₂ (fun v w => answer ((standard r).convertValue line v) = some w) items made := by
  induction items generalizing made with
  | nil =>
    cases given
    exact .nil
  | cons v rest ih =>
    rw [(convertItems_cons _ line v rest).1] at given
    obtain ⟨w, first, others⟩ := Option.bind_eq_some_iff.mp given
    obtain ⟨ws, later, rfl⟩ := Option.map_eq_some_iff.mp others
    exact .cons first (ih later)

theorem fits_flat {items : List Value} (plain : f.Plain) (fits : f.Fits (.list items)) {w : Value}
    (member : w ∈ items) : w.items? = none := by
  cases repeated : f.cardinality.isSequence with
  | true =>
    have each := ((Field.fits_items repeated rfl).mp fits).2
    exact ElementType.accepts_flat plain.flat (each w member)
  | false =>
    have accepted := ((Field.fits_single repeated plain.known).mp fits).2
    have flat := ElementType.accepts_flat plain.flat accepted
    cases flat

theorem held_child {line : Option UInt32} {w : Value} {m : Native.Node} (plain : f.Plain) (fits : f.Fits w)
    (given : answer ((standard r).convertValue line v) = some w) (held : v.Holds m) :
    ∃ child, answer ((standard r).convertNode m) = some child ∧ child ∈ w.children := by
  cases held with
  | node =>
    rw [(convertValue_node _ line m).1] at given
    obtain ⟨child, converts, rfl⟩ := Option.map_eq_some_iff.mp given
    exact ⟨child, converts, Value.mem_children.mpr (.inl rfl)⟩
  | @item items u m member held =>
    rw [(convertValue_list _ line items).1] at given
    obtain ⟨ws, converts, rfl⟩ := Option.map_eq_some_iff.mp given
    obtain ⟨x, inside, shown⟩ := forall₂_partner (items_converted r converts).flip member
    have flat := fits_flat plain fits inside
    cases held with
    | node =>
      rw [(convertValue_node _ line m).1] at shown
      obtain ⟨child, converts, rfl⟩ := Option.map_eq_some_iff.mp shown
      exact ⟨child, converts, Value.mem_children.mpr (.inr ⟨ws, rfl, inside⟩)⟩
    | item =>
      rw [(convertValue_list _ line _).1] at shown
      obtain ⟨deeper, -, rfl⟩ := Option.map_eq_some_iff.mp shown
      cases flat

theorem get_typed {w : Value} (typed : made.WellTyped r) (held : made.get? name = some w) :
    .value w ∈ made.slots ∧ ∃ f ∈ made.schema.fields, f.Fits w := by
  obtain ⟨s, slot, isValue⟩ := Option.bind_eq_some_iff.mp held
  obtain ⟨index, found, place⟩ := Option.bind_eq_some_iff.mp slot
  obtain ⟨f, field, -⟩ := Node.fieldIndex_field found
  have fits := (Node.wellTyped_index.mp typed).2.2 index f s field place
  cases s with
  | value u =>
    cases isValue
    exact ⟨List.mem_of_getElem? place, f, List.mem_of_getElem? field, fits.1⟩
  | _ => cases isValue

variable {r}

theorem usual_child {m : Native.Node} (plain : r.Plain) (usual : route n = .usual)
    (quiet : messages ((standard r).convertNode n) = []) (typed : made.WellTyped r)
    (converts : answer ((standard r).convertNode n) = some made) (distinct : (n.fields.map (·.1)).Nodup)
    (field : (name, v) ∈ n.fields) (held : v.Holds m) (kept : ¬ Lost v) :
    ∃ child, answer ((standard r).convertNode m) = some child ∧ child ∈ made.children := by
  obtain ⟨before, after, place⟩ := List.append_of_mem field
  have last : ∀ g ∈ after, g.1 = name → Lost g.2 := by
    intro g later same
    rw [place, List.map_append, List.map_cons, List.nodup_append] at distinct
    exact absurd (List.mem_map.mpr ⟨g, later, same⟩) (List.nodup_cons.mp distinct.2.1).1
  obtain ⟨w, given, stands⟩ := (field_stands r usual quiet converts place held last).mpr kept
  obtain ⟨slot, f, declared, fits⟩ := get_typed r typed stands
  obtain ⟨child, made, inside⟩ := held_child r (plain _ typed.member f declared) fits given held
  exact ⟨child, made, Node.mem_children.mpr ⟨_, slot, inside⟩⟩

theorem reached_visited {root : Native.Node} (plain : r.Plain) (reached : Reaches root n)
    (distinct : ∀ m, Visits root m → (m.fields.map (·.1)).Nodup) :
    ∀ tree, tree.WellTyped r → messages ((standard r).convertNode root) = [] →
      answer ((standard r).convertNode root) = some tree →
      ∃ made, answer ((standard r).convertNode n) = some made ∧ made ∈ tree.visited := by
  induction reached with
  | self n => exact fun tree typed quiet converts => ⟨tree, converts, tree.self_visited⟩
  | @part n m k name v usual field held kept rest ih =>
    intro tree typed quiet converts
    have inner := fun k visited => distinct k (.part usual field held visited)
    obtain ⟨child, made, inside⟩ :=
      usual_child plain usual quiet typed converts (distinct n (.self n)) field held kept
    have quietChild := visits_quiet r (.part usual field held (.self m)) quiet
    obtain ⟨last, converted, below⟩ := ih inner child (Node.child_typed typed inside) quietChild made
    exact ⟨last, converted, Node.mem_visited.mpr (.inr ⟨child, inside, below⟩)⟩
  | @inside n m k wraps rest ih =>
    intro tree typed quiet converts
    rw [convertNode_route, wraps] at quiet converts
    exact ih (fun k visited => distinct k (.inside wraps visited)) tree typed quiet converts

theorem core_reserved : coreRegistry.schemas.all (fun s => s.fields.all fun f =>
    !isReserved f.name || (s.kind == "TypeIgnore" && f.name == "lineno")) = true := by
  decide +kernel

theorem declared_reserved {s : Schema} (member : s ∈ coreRegistry.schemas) (declared : s.field? name = some f)
    (reserved : isReserved name = true) : s.kind = "TypeIgnore" ∧ name = "lineno" := by
  obtain ⟨index, found, place⟩ := Option.bind_eq_some_iff.mp declared
  obtain ⟨g, field, named⟩ := Node.fieldIndex_field found
  cases place.symm.trans field
  have checked := List.all_eq_true.mp (List.all_eq_true.mp core_reserved s member) f (List.mem_of_getElem? place)
  rw [named, reserved] at checked
  simpa using checked

theorem declared_known {s : Schema} (member : s ∈ coreRegistry.schemas) (declared : s.field? name = some f) :
    (s.resolve? name).isSome := by
  obtain ⟨index, found, place⟩ := Option.bind_eq_some_iff.mp declared
  obtain ⟨g, field, named⟩ := Node.fieldIndex_field found
  rw [← named]
  exact (core_written member).2.1 g (List.mem_of_getElem? field)

theorem translate_read {text : String} {tree : Node} (ok : translate text = .ok tree) :
    ∃ j root, Json.read? text = some j ∧ Native.ofJson j = .ok root ∧
      ((standard coreRegistry).convert root).1 = .ok tree := by
  unfold translate at ok
  cases given : Native.read text with
  | error e =>
    rw [given] at ok
    cases ok
  | ok root =>
    rw [given] at ok
    unfold Native.read at given
    cases found : Json.read? text with
    | none =>
      rw [found] at given
      cases given
    | some j =>
      rw [found] at given
      exact ⟨j, root, rfl, given, ok⟩

theorem object_kept {members : List (String × Json)} (decoded : decodeValue (.object members) = .ok (.node n))
    (keys : (members.map (·.1)).Nodup) (usual : route n = .usual)
    (quiet : messages ((standard coreRegistry).convertNode n) = [])
    (converts : answer ((standard coreRegistry).convertNode n) = some made)
    (inside : made.schema ∈ coreRegistry.schemas) {key : String} {held : Json} (member : (key, held) ∈ members)
    (declared : made.schema.field? key = some f) :
    if made.kind = "TypeIgnore" ∧ key = "lineno" then made.slot? key = some .unset
    else ∃ v, decodeValue held = .ok v ∧ (Lost v → made.slot? key = some .unset) ∧
      (¬ Lost v → ∃ s, made.slot? key = some s ∧ Kept coreRegistry n.line f v s) := by
  obtain ⟨same, shape, read⟩ := (Native.decode_shape decoded).1 n rfl
  cases shape
  have distinct := Native.fields_distinct read keys
  split
  · next ignored =>
    refine field_absent coreRegistry usual converts (fun g given same => ?_) declared
    have named : g.1 ∈ (members.map (·.1)).filter fun key => !isReserved key :=
      Native.fields_keys read ▸ List.mem_map_of_mem given
    rw [same, ignored.2] at named
    cases (List.mem_filter.mp named).2
  · next other =>
    have plain : isReserved key = false :=
      Bool.eq_false_iff.mpr fun reserved => other (declared_reserved inside declared reserved)
    obtain ⟨v, decodedValue, field⟩ := Native.member_field read member plain
    exact ⟨v, decodedValue, field_kept coreRegistry usual quiet converts distinct field declared
      (declared_known inside declared)⟩

-- In a translation that succeeds, a key that its kind declares sets its field, except that a field is unset where
-- a silent node is lost in its value, and that the line of an ignored type is read as a position. The node that is
-- made is in the tree, if it is not itself lost with a silent one.
theorem declared_kept {text : String} {tree : Node} (ok : translate text = .ok tree) :
    ∃ j root, Json.read? text = some j ∧ Native.ofJson j = .ok root ∧
      (∀ n, Visits root n → ∃ members ∈ j.objects, decodeValue (.object members) = .ok (.node n)) ∧
      ∀ members ∈ j.objects, ∀ n, decodeValue (.object members) = .ok (.node n) → Visits root n →
        route n = .usual → ∃ made, ((standard coreRegistry).convertNode n).run .empty = (some made, .empty) ∧
          made.kind = n.kind ∧ (Reaches root n → made ∈ tree.visited) ∧
          ∀ key held, (key, held) ∈ members → ∀ f, made.schema.field? key = some f →
            if made.kind = "TypeIgnore" ∧ key = "lineno" then made.slot? key = some .unset
            else ∃ v, decodeValue held = .ok v ∧ (Lost v → made.slot? key = some .unset) ∧
              (¬ Lost v → ∃ s, made.slot? key = some s ∧ Kept coreRegistry n.line f v s) := by
  obtain ⟨j, root, read, decoded, translated⟩ := translate_read ok
  have distinct := Json.read_distinct read
  refine ⟨j, root, read, decoded, fun n visited => visits_object visited (ofJson_root decoded), ?_⟩
  intro members inside n object visited usual
  obtain ⟨quietRoot, converts⟩ := convert_ok.mp translated
  have quiet := visits_quiet coreRegistry visited quietRoot
  obtain ⟨made, -, converted, -, -⟩ := usual_made coreRegistry usual quiet
  obtain ⟨schema, found, built⟩ := usual_filled coreRegistry usual converted
  have same : made.schema = schema := Node.ofFields_schema built
  have core : made.schema ∈ coreRegistry.schemas := same ▸ Registry.get_member found
  have named : schema.kind = n.kind := by simpa using List.find?_some found
  refine ⟨made, by rw [quiet_run _ quiet, converted], by rw [Node.kind, same, named], fun reached => ?_, ?_⟩
  · obtain ⟨other, again, there⟩ := reached_visited core_plain reached
      (fun m visited => visits_distinct distinct decoded visited) tree (translate_typed ok) quietRoot converts
    cases converted.symm.trans again
    exact there
  · exact fun key held member f declared =>
      object_kept object (distinct members inside) usual quiet converted core member declared

-- A module with a type that is ignored in its third line: its text, the object of the mark, and both as nodes.
def ignoredLine : String :=
  "\x7b\"_type\": \"Module\", \"body\": [], \"type_ignores\": [" ++
    "\x7b\"_type\": \"TypeIgnore\", \"lineno\": 3, \"tag\": \"\"\x7d]\x7d"

def ignoredMembers : List (String × Json) :=
  [("_type", .string "TypeIgnore"), ("lineno", .number "3"), ("tag", .string "")]

def ignoredObject : Json :=
  .object [("_type", .string "Module"), ("body", .array []), ("type_ignores", .array [.object ignoredMembers])]

def ignoredNode : Native.Node := .mk "TypeIgnore" (some 3) [("tag", .str "")]

def ignoredModule : Native.Node := .mk "Module" none [("body", .list []), ("type_ignores", .list [.node ignoredNode])]

set_option maxRecDepth 4000 in
theorem ignoredLine_read : Json.read? ignoredLine = some ignoredObject := by rfl

theorem ignoredNode_reached : Reaches ignoredModule ignoredNode := by
  have held : (Native.Value.list [.node ignoredNode]).Holds ignoredNode := .item (List.mem_cons_self ..) (.node _)
  refine .part rfl (List.mem_cons_of_mem _ (List.mem_cons_self ..)) held (fun lost => ?_) (.self _)
  obtain ⟨m, inside, silent⟩ := lost
  cases inside with
  | item member held =>
    cases List.mem_singleton.mp member
    cases held
    exact (silent_route ignoredNode).mp silent

theorem ignoredLine_translated : ∃ tree, translate ignoredLine = .ok tree ∧ ∃ made ∈ tree.visited,
    made.kind = "TypeIgnore" ∧ made.schema.field? "lineno" = some ⟨"lineno", .int, .required⟩ ∧
    made.schema.field? "tag" = some ⟨"tag", .string, .required⟩ ∧ made.isSet "lineno" = false := by
  have found : ((translate ignoredLine).toOption.any fun tree => tree.visited.any fun n =>
      n.kind == "TypeIgnore" && n.schema.field? "lineno" == some ⟨"lineno", .int, .required⟩ &&
      n.schema.field? "tag" == some ⟨"tag", .string, .required⟩ && !n.isSet "lineno") = true := by
    decide +kernel
  cases ok : translate ignoredLine with
  | error e =>
    rw [ok] at found
    cases found
  | ok tree =>
    rw [ok] at found
    obtain ⟨made, met, all⟩ := List.any_eq_true.mp found
    simp only [Bool.and_eq_true, beq_iff_eq, Bool.not_eq_true'] at all
    exact ⟨tree, rfl, made, met, all.1.1.1, all.1.1.2, all.1.2, all.2⟩

-- The tag of the mark is kept, its line is not.
theorem ignoredLine_kept : ∃ tree made s, translate ignoredLine = .ok tree ∧ made ∈ tree.visited ∧
    made.kind = "TypeIgnore" ∧ made.slot? "lineno" = some .unset ∧ made.slot? "tag" = some s ∧
    Kept coreRegistry (some 3) ⟨"tag", .string, .required⟩ (.str "") s := by
  obtain ⟨tree, ok, mark, ofMark, markKind, lineDeclared, tagDeclared, -⟩ := ignoredLine_translated
  obtain ⟨j, root, read, decoded, -, kept⟩ := declared_kept ok
  cases ignoredLine_read.symm.trans read
  have module : Native.ofJson ignoredObject = .ok ignoredModule := by rfl
  cases module.symm.trans decoded
  have inside : ignoredMembers ∈ ignoredObject.objects := List.mem_cons_of_mem _ (List.mem_cons_self ..)
  obtain ⟨made, -, kind, there, fields⟩ := kept ignoredMembers inside ignoredNode rfl
    (reaches_visits ignoredNode_reached) rfl
  change made.kind = "TypeIgnore" at kind
  have met := there ignoredNode_reached
  have typed := translate_typed ok
  have same : made.schema = mark.schema :=
    core_unique (Node.visited_typed typed met).member (Node.visited_typed typed ofMark).member
      (kind.trans markKind.symm)
  rw [← same] at lineDeclared tagDeclared
  have line := fields "lineno" (.number "3") (List.mem_cons_of_mem _ (List.mem_cons_self ..)) _ lineDeclared
  rw [if_pos ⟨kind, rfl⟩] at line
  have tag := fields "tag" (.string "") (List.mem_of_getElem? (i := 2) rfl) _ tagDeclared
  rw [if_neg (fun both => absurd both.2 (by decide))] at tag
  obtain ⟨v, decodedTag, -, stands⟩ := tag
  cases decodedTag
  obtain ⟨s, slot, keeps⟩ := stands fun lost => by
    obtain ⟨m, held, -⟩ := lost
    cases held
  exact ⟨tree, made, s, ok, met, kind, line, slot, keeps⟩

-- The line is a required field of its kind and stands in the object, but is not in the tree.
theorem ignoredLine_lost : ∃ tree made, translate ignoredLine = .ok tree ∧ made ∈ tree.visited ∧
    made.kind = "TypeIgnore" ∧ made.schema.field? "lineno" = some ⟨"lineno", .int, .required⟩ ∧
    made.isSet "lineno" = false ∧ Json.read? ignoredLine = some ignoredObject ∧
    ignoredMembers ∈ ignoredObject.objects ∧ ("_type", .string "TypeIgnore") ∈ ignoredMembers ∧
    ("lineno", .number "3") ∈ ignoredMembers := by
  obtain ⟨tree, ok, made, met, kind, declared, -, unset⟩ := ignoredLine_translated
  exact ⟨tree, made, ok, met, kind, declared, unset, ignoredLine_read,
    List.mem_cons_of_mem _ (List.mem_cons_self ..), List.mem_cons_self ..,
    List.mem_cons_of_mem _ (List.mem_cons_self ..)⟩

end Translator

end TreeLowering
