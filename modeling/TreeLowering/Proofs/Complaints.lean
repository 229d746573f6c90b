import TreeLowering.Proofs.SilentLoss
import Mathlib.Data.List.Basic

namespace TreeLowering

namespace Node

-- What assignment has against a value for a field. Only the schema matters.
def refused? (schema : Schema) (f : String × Value) : Option NodeError :=
  match (empty schema).set f.1 f.2 with
  | .ok _ => none
  | .error e => some e

theorem set_error {n : Node} {name : String} {v : Value} {e : NodeError} :
    n.set name v = .error e ↔ refused? n.schema (name, v) = some e := by
  have sameIndex : (empty n.schema).indexOf name = n.indexOf name := rfl
  unfold refused? set
  dsimp only
  rw [sameIndex]
  cases n.indexOf name with
  | error e' => simp [bind, Except.bind]
  | ok index =>
    change n.setAt index v = .error e ↔ (match (empty n.schema).setAt index v with
      | .ok _ => none
      | .error e => some e) = some e
    have sameKind : (empty n.schema).kind = n.kind := rfl
    have sameSchema : (empty n.schema).schema = n.schema := rfl
    unfold setAt
    rw [sameSchema, sameKind]
    cases n.schema.fields[index]? with
    | none => simp
    | some f =>
      dsimp only
      cases f.assign n.kind v <;> simp [bind, Except.bind, pure, Except.pure]

theorem setNamed_error {n : Node} {named : List (String × Value)} {e : NodeError} :
    n.setNamed named = .error e ↔ named.findSome? (refused? n.schema) = some e := by
  induction named generalizing n with
  | nil => simp [setNamed]
  | cons field rest ih =>
    obtain ⟨name, v⟩ := field
    rw [setNamed, List.findSome?_cons]
    cases first : n.set name v with
    | error e' =>
      rw [set_error.mp first]
      simp [bind, Except.bind]
    | ok middle =>
      have accepted : refused? n.schema (name, v) = none := by
        cases refused : refused? n.schema (name, v) with
        | none => rfl
        | some e' => rw [set_error.mpr refused] at first; cases first
      rw [accepted, ← set_schema first]
      exact ih

end Node

namespace Translator

-- Why no node of a kind can be built from fields, if so: there is no such kind, or the first of the values
-- that cannot be assigned.
def refusal? (r : Registry) (kind : String) (fields : List (String × Value)) : Option String :=
  match r.get? kind with
  | none => some ("unsupported syntax: " ++ kind)
  | some schema => ((tolerated schema fields).findSome? (Node.refused? schema)).map NodeError.message

theorem build_refusal (t : Translator) (kind : String) (fields : List (String × Value))
    (line : Option UInt32) :
    messages (t.build kind fields line) =
      (refusal? t.registry kind fields).toList.map fun text => ⟨text, line⟩ := by
  unfold build refusal?
  cases t.registry.get? kind with
  | none => rfl
  | some schema =>
    have kept : fields.filter (fun f => (schema.resolve? f.1).isSome || !isBlank f.2) =
        tolerated schema fields := rfl
    dsimp only
    rw [kept, Node.ofFields_setNamed]
    have refuses (e : NodeError) : (Node.empty schema).setNamed (tolerated schema fields) = .error e ↔
        (tolerated schema fields).findSome? (Node.refused? schema) = some e := Node.setNamed_error
    cases outcome : (Node.empty schema).setNamed (tolerated schema fields) with
    | error e => rw [(refuses e).mp outcome]; rfl
    | ok n =>
      cases refused : (tolerated schema fields).findSome? (Node.refused? schema) with
      | none => rfl
      | some e => rw [(refuses e).mpr refused] at outcome; cases outcome

-- The places that a conversion comes to: nodes, and the values in their fields that are neither nodes nor
-- sequences, with the line of the node around them.
inductive Place where
  | node (n : Native.Node)
  | leaf (line : Option UInt32) (v : Native.Value)

mutual
-- In the order of the document, and a node behind what is below it.
def places : Native.Node → List Place
  | .mk kind line fields =>
    let below := match route (.mk kind line fields) with
      | .usual => fieldPlaces line fields
      | .wrapped _ => wrappedPlaces fields
      | _ => []
    below ++ [.node (.mk kind line fields)]
termination_by structural n => n

def fieldPlaces (line : Option UInt32) : List (String × Native.Value) → List Place
  | [] => []
  | (_, v) :: rest => valuePlaces line v ++ fieldPlaces line rest
termination_by structural fs => fs

def wrappedPlaces : List (String × Native.Value) → List Place
  | [] => []
  | (name, v) :: rest =>
    if name = "value" then
      match v with
      | .node inner => places inner
      | _ => []
    else wrappedPlaces rest
termination_by structural fs => fs

def valuePlaces (line : Option UInt32) : Native.Value → List Place
  | .node n => places n
  | .list items => itemPlaces line items
  | v => [.leaf line v]
termination_by structural v => v

def itemPlaces (line : Option UInt32) : List Native.Value → List Place
  | [] => []
  | v :: rest => valuePlaces line v ++ itemPlaces line rest
termination_by structural vs => vs
end

theorem fieldPlaces_flatMap (line : Option UInt32) (fields : List (String × Native.Value)) :
    fieldPlaces line fields = fields.flatMap fun f => valuePlaces line f.2 := by
  induction fields with
  | nil => rfl
  | cons field rest ih => rw [fieldPlaces, ih, List.flatMap_cons]

theorem itemPlaces_flatMap (line : Option UInt32) (items : List Native.Value) :
    itemPlaces line items = items.flatMap (valuePlaces line) := by
  induction items with
  | nil => rfl
  | cons v rest ih => rw [itemPlaces, ih, List.flatMap_cons]

theorem wrappedPlaces_value {fields : List (String × Native.Value)} {inner : Native.Node}
    (found : Keyed.lookup? "value" fields = some (.node inner)) : wrappedPlaces fields = places inner := by
  induction fields with
  | nil => cases found
  | cons field rest ih =>
    obtain ⟨name, v⟩ := field
    unfold wrappedPlaces
    by_cases same : name = "value"
    · subst same
      cases found
      rfl
    · rw [if_neg same]
      exact ih (by simpa [Keyed.lookup?, same] using found)

theorem places_usual {n : Native.Node} (usual : route n = .usual) :
    places n = (n.fields.flatMap fun f => valuePlaces n.line f.2) ++ [.node n] := by
  obtain ⟨kind, line, fields⟩ := n
  rw [places, usual, ← fieldPlaces_flatMap]
  rfl

theorem places_wrapped {n inner : Native.Node} (wraps : route n = .wrapped inner) :
    places n = places inner ++ [.node n] := by
  obtain ⟨kind, line, fields⟩ := n
  rw [places, wraps, ← wrappedPlaces_value (route_wrapped.mp wraps).2]
  rfl

theorem places_other {n : Native.Node} (unusual : route n ≠ .usual)
    (bare : ∀ inner, route n ≠ .wrapped inner) : places n = [.node n] := by
  obtain ⟨kind, line, fields⟩ := n
  rw [places]
  cases way : route (.mk kind line fields) with
  | usual => exact absurd way unusual
  | wrapped inner => exact absurd way (bare inner)
  | _ => rfl

theorem holds_places {v : Native.Value} {k : Native.Node} {place : Place} (line : Option UInt32)
    (held : v.Holds k) (member : place ∈ places k) : place ∈ valuePlaces line v := by
  induction held with
  | node n => exact member
  | item inside held ih =>
    rw [valuePlaces, itemPlaces_flatMap]
    exact List.mem_flatMap.mpr ⟨_, inside, ih member⟩

theorem visits_places {n m : Native.Node} (visited : Visits n m) : .node m ∈ places n := by
  induction visited with
  | self n =>
    obtain ⟨kind, line, fields⟩ := n
    exact List.mem_append_right _ (List.mem_cons_self ..)
  | part usual field held rest ih =>
    rw [places_usual usual]
    exact List.mem_append_left _ (List.mem_flatMap.mpr ⟨_, field, holds_places _ held ih⟩)
  | inside wraps rest ih =>
    rw [places_wrapped wraps]
    exact List.mem_append_left _ ih

mutual
theorem places_visited {n m : Native.Node} (member : .node m ∈ places n) : Visits n m := by
  cases way : route n with
  | usual =>
    rw [places_usual way, List.mem_append, List.mem_flatMap, List.mem_singleton] at member
    rcases member with ⟨field, inside, member⟩ | same
    · have smaller := field_smaller inside
      obtain ⟨k, held, visited⟩ := valuePlaces_visited member
      exact .part way inside held visited
    · cases same
      exact .self n
  | wrapped inner =>
    rw [places_wrapped way, List.mem_append, List.mem_singleton] at member
    rcases member with member | same
    · have smaller := wrapped_smaller way
      exact .inside way (places_visited member)
    · cases same
      exact .self n
  | _ =>
    rw [places_other (by simp [way]) (by simp [way]), List.mem_singleton] at member
    cases member
    exact .self n
termination_by sizeOf n

theorem valuePlaces_visited {line : Option UInt32} {v : Native.Value} {m : Native.Node}
    (member : .node m ∈ valuePlaces line v) : ∃ k, v.Holds k ∧ Visits k m := by
  cases v with
  | node n => exact ⟨n, .node n, places_visited member⟩
  | list items =>
    rw [valuePlaces, itemPlaces_flatMap] at member
    obtain ⟨v, inside, member⟩ := List.mem_flatMap.mp member
    have smaller := List.sizeOf_lt_of_mem inside
    obtain ⟨k, held, visited⟩ := valuePlaces_visited member
    exact ⟨k, .item inside held, visited⟩
  | _ => cases List.mem_singleton.mp member
termination_by sizeOf v
end

variable (r : Registry)

-- The fields of a node that convert, with their values.
def converted (n : Native.Node) : List (String × Value) :=
  n.fields.filterMap fun f => (answer ((standard r).convertValue n.line f.2)).map (f.1, ·)

-- The features that an import asks for and that there are, and the others.
def featuresKnown (names : Option Native.Value) : List String :=
  (importNames names).filter fun name => knownFeatures.contains name

def featuresUnknown (names : Option Native.Value) : List String :=
  (importNames names).filter fun name => !knownFeatures.contains name

def texts (n : Native.Node) : Route → List String
  | .usual => (refusal? r n.kind (converted r n)).toList
  | .literal (.ok (kind, field, v)) => (refusal? r kind [(field, v)]).toList
  | .literal (.error text) => [text]
  | .features names =>
    (featuresUnknown names).map (fun name => "future feature " ++ name ++ " is not defined") ++
      if (featuresKnown names).isEmpty then []
      else (refusal? r "FutureImport" [("features", .list ((featuresKnown names).map .str))]).toList
  | .wrapped _ => []
  | .bare => ["Index without a value"]

-- The messages of a place. A node has its own line, a value that of the node around it.
def remarks : Place → List Message
  | .node n => (texts r n (route n)).map fun text => ⟨text, n.line⟩
  | .leaf line (.bigInt text) => [⟨outOfRange text, line⟩]
  | .leaf line (.foreign text) => [⟨"unsupported value " ++ text, line⟩]
  | .leaf _ _ => []

theorem features_said (names : Option Native.Value) (line : Option UInt32) :
    messages ((standard r).buildFeatures names line) =
      ((featuresUnknown names).map (fun name => "future feature " ++ name ++ " is not defined") ++
        if (featuresKnown names).isEmpty then []
        else (refusal? r "FutureImport" [("features", .list ((featuresKnown names).map .str))]).toList).map
          fun text => ⟨text, line⟩ := by
  have collected := features_appends line (importEntries names)
  have built := fun found => importBuild_appends (standard r) found line
  have found : answer (features line (importEntries names)) = (featuresKnown names).map .str :=
    features_answer line (importEntries names)
  have unknown : messages (features line (importEntries names)) = (featuresUnknown names).map fun name =>
      ⟨"future feature " ++ name ++ " is not defined", line⟩ := features_messages line (importEntries names)
  rw [buildFeatures_eq, messages_bind collected (built _), found, unknown, List.map_append, List.map_map]
  congr 1
  by_cases none : featuresKnown names = []
  · simp [none]
  · simp [none, build_refusal, standard]

mutual
theorem node_messages (n : Native.Node) :
    messages ((standard r).convertNode n) = (places n).flatMap (remarks r) := by
  rw [convertNode_route]
  cases way : route n with
  | usual =>
    have own : messages ((standard r).build n.kind (converted r n) n.line) = remarks r (.node n) := by
      simp only [remarks, way, texts, build_refusal, standard]
    rw [(usual_built _ n).2, convertFields_answer, places_usual way, List.flatMap_append, List.flatMap_singleton,
      List.flatMap_assoc, ← own, convertFields_messages]
    refine congrArg (· ++ _) (List.flatMap_congr fun f inside => ?_)
    have smaller := field_smaller inside
    exact value_messages n.line f.2
  | wrapped inner =>
    have smaller := wrapped_smaller way
    have nothing : remarks r (.node n) = [] := by simp [remarks, way, texts]
    rw [places_wrapped way, List.flatMap_append, List.flatMap_singleton, nothing, List.append_nil]
    exact node_messages inner
  | literal l =>
    rw [places_other (by simp [way]) (by simp [way]), List.flatMap_singleton, remarks, way]
    cases l with
    | ok l => exact build_refusal (standard r) _ _ n.line
    | error text => rfl
  | features names =>
    rw [places_other (by simp [way]) (by simp [way]), List.flatMap_singleton, remarks, way]
    exact features_said r names n.line
  | bare =>
    rw [places_other (by simp [way]) (by simp [way]), List.flatMap_singleton, remarks, way]
    rfl
termination_by sizeOf n

theorem value_messages (line : Option UInt32) (v : Native.Value) :
    messages ((standard r).convertValue line v) = (valuePlaces line v).flatMap (remarks r) := by
  cases v with
  | node n =>
    rw [(convertValue_node _ line n).2]
    exact node_messages n
  | list items =>
    rw [(convertValue_list _ line items).2, convertItems_messages, valuePlaces, itemPlaces_flatMap,
      List.flatMap_assoc]
    refine List.flatMap_congr fun v inside => ?_
    have smaller := List.sizeOf_lt_of_mem inside
    exact value_messages line v
  | _ => rfl
termination_by sizeOf v
end

theorem singleton_text {found : Option Native.Value} (plain : ∀ text, found ≠ some (.str text)) :
    singleton? found = none := by
  unfold singleton?
  split <;> first | rfl | exact absurd rfl (plain _)

theorem nameRoute_usual {fields : List (String × Native.Value)} :
    nameRoute fields = .usual ↔ singleton? (Keyed.lookup? "id" fields) = none := by
  unfold nameRoute
  cases singleton? (Keyed.lookup? "id" fields) <;> simp

theorem importRoute_usual {fields : List (String × Native.Value)} :
    importRoute fields = .usual ↔ Keyed.lookup? "module" fields ≠ some (.str futureModule) := by
  unfold importRoute
  split
  · next module found =>
    by_cases future : module = futureModule
    · simp [found, future]
    · simp [found, future]
  · next other => simpa using fun found => other _ found

theorem wrapperRoute_unusual (fields : List (String × Native.Value)) : wrapperRoute fields ≠ .usual := by
  unfold wrapperRoute
  split <;> simp

theorem route_usual {n : Native.Node} : route n = .usual ↔ n.kind ∉ ["Num", "Constant", "Index"] ∧
    (n.kind = "Name" → singleton? (Keyed.lookup? "id" n.fields) = none) ∧
    (n.kind = "ImportFrom" → Keyed.lookup? "module" n.fields ≠ some (.str futureModule)) := by
  unfold route
  by_cases name : n.kind = "Name"
  · simp [name, nameRoute_usual]
  by_cases number : n.kind = "Num"
  · simp [number]
  by_cases constant : n.kind = "Constant"
  · simp [constant]
  by_cases imports : n.kind = "ImportFrom"
  · simp [imports, importRoute_usual]
  by_cases index : n.kind = "Index"
  · simp [index, wrapperRoute_unusual]
  · simp [name, number, constant, imports, index]

-- Only a text takes a node from the usual way, so it does not matter how fields differ in other values.
theorem usual_kept {kind : String} {line : Option UInt32} {fields others : List (String × Native.Value)}
    (usual : route (.mk kind line fields) = .usual)
    (alike : ∀ key, Keyed.lookup? key others = Keyed.lookup? key fields ∨
      ∀ text, Keyed.lookup? key others ≠ some (.str text)) : route (.mk kind line others) = .usual := by
  obtain ⟨handled, name, imports⟩ := route_usual.mp usual
  refine route_usual.mpr ⟨handled, fun same => ?_, fun same => ?_⟩
  · rcases alike "id" with kept | plain
    · exact (congrArg singleton? kept).trans (name same)
    · exact singleton_text plain
  · rcases alike "module" with kept | plain
    · intro module
      exact imports same (kept.symm.trans module)
    · exact plain futureModule

theorem lookup_append {α : Type} (key : String) (xs ys : List (String × α)) :
    Keyed.lookup? key (xs ++ ys) = (Keyed.lookup? key xs).or (Keyed.lookup? key ys) := by
  simp [Keyed.lookup?, List.find?_append, Option.map_or]

theorem lookup_cons {α : Type} (key name : String) (v : α) (rest : List (String × α)) :
    Keyed.lookup? key ((name, v) :: rest) = if name = key then some v else Keyed.lookup? key rest := by
  by_cases same : name = key <;> simp [Keyed.lookup?, same]

-- A node without one of its fields gives the same, and says the same but for what that field had to say.
def AsIfAbsent (n shorter : Native.Node) (v : Native.Value) : Prop :=
  answer ((standard r).convertNode n) = answer ((standard r).convertNode shorter) ∧
    ∃ before after,
      messages ((standard r).convertNode n) =
        before ++ messages ((standard r).convertValue n.line v) ++ after ∧
      messages ((standard r).convertNode shorter) = before ++ after

theorem field_around {kind : String} {line : Option UInt32} {before after : List (String × Native.Value)}
    {name : String} {v : Native.Value}
    (usual : route (.mk kind line (before ++ (name, v) :: after)) = .usual) :
    messages ((standard r).convertNode (.mk kind line (before ++ (name, v) :: after))) =
      messages ((standard r).convertFields line before) ++ messages ((standard r).convertValue line v) ++
        (messages ((standard r).convertFields line after) ++ messages ((standard r).build kind
          (answer ((standard r).convertFields line (before ++ (name, v) :: after))) line)) := by
  rw [convertNode_route, usual, (usual_built _ _).2]
  simp [Native.Node.kind, Native.Node.line, Native.Node.fields, convertFields_messages]

theorem usual_answer {kind : String} {line : Option UInt32} {fields others : List (String × Native.Value)}
    (usual : route (.mk kind line fields) = .usual) (usualOthers : route (.mk kind line others) = .usual)
    (same : answer ((standard r).convertFields line fields) = answer ((standard r).convertFields line others)) :
    answer ((standard r).convertNode (.mk kind line fields)) =
      answer ((standard r).convertNode (.mk kind line others)) := by
  rw [convertNode_route, convertNode_route, usual, usualOthers, (usual_built _ _).1, (usual_built _ _).1]
  exact congrArg (fun fields => answer ((standard r).build kind fields line)) same

theorem failed_field {kind : String} {line : Option UInt32} {before after : List (String × Native.Value)}
    {name : String} {v : Native.Value}
    (usual : route (.mk kind line (before ++ (name, v) :: after)) = .usual)
    (usualShorter : route (.mk kind line (before ++ after)) = .usual)
    (failed : answer ((standard r).convertValue line v) = none) :
    AsIfAbsent r (.mk kind line (before ++ (name, v) :: after)) (.mk kind line (before ++ after)) v := by
  have same : answer ((standard r).convertFields line (before ++ (name, v) :: after)) =
      answer ((standard r).convertFields line (before ++ after)) := by
    simp [convertFields_answer, failed]
  refine ⟨usual_answer r usual usualShorter same, _, _, field_around r usual, ?_⟩
  rw [convertNode_route, usualShorter, (usual_built _ _).2, same]
  simp [Native.Node.kind, Native.Node.line, Native.Node.fields, convertFields_messages]

theorem usual_shorter {kind : String} {line : Option UInt32} {before after : List (String × Native.Value)}
    {name : String} {v : Native.Value}
    (usual : route (.mk kind line (before ++ (name, v) :: after)) = .usual)
    (single : ∀ f ∈ after, f.1 ≠ name) : route (.mk kind line (before ++ after)) = .usual := by
  refine usual_kept usual fun key => ?_
  rw [lookup_append, lookup_append, lookup_cons]
  by_cases same : name = key
  · have absent : Keyed.lookup? key after = none := by
      rw [← same]
      simpa [Keyed.lookup?] using fun a b member => single (a, b) member
    cases Keyed.lookup? key before <;> simp [absent, same]
  · simp [same]

-- One value is the other with a node in its place, where the conversion comes to it.
inductive Swaps (x y : Native.Node) : Native.Value → Native.Value → Prop where
  | here : Swaps x y (.node x) (.node y)
  | item {v w : Native.Value} (before after : List Native.Value) (part : Swaps x y v w) :
      Swaps x y (.list (before ++ v :: after)) (.list (before ++ w :: after))
  | field {kind : String} {line : Option UInt32} {name : String} {v w : Native.Value}
      (before after : List (String × Native.Value))
      (usual : route (.mk kind line (before ++ (name, v) :: after)) = .usual) (part : Swaps x y v w) :
      Swaps x y (.node (.mk kind line (before ++ (name, v) :: after)))
        (.node (.mk kind line (before ++ (name, w) :: after)))
  | wrapped {line : Option UInt32} {m k : Native.Node} (before after : List (String × Native.Value))
      (first : ∀ f ∈ before, f.1 ≠ "value") (part : Swaps x y (.node m) (.node k)) :
      Swaps x y (.node (.mk "Index" line (before ++ ("value", .node m) :: after)))
        (.node (.mk "Index" line (before ++ ("value", .node k) :: after)))

-- Two conversions with one result, that say the same but for what two others have to say.
def Apart (before after : List Message) {α β : Type} (c d : Converting α) (x y : Converting β) : Prop :=
  answer c = answer d ∧ messages c = before ++ messages x ++ after ∧ messages d = before ++ messages y ++ after

theorem swaps_plain {x y : Native.Node} {v w : Native.Value} (swaps : Swaps x y v w) (text : String) :
    w ≠ .str text := by
  cases swaps <;> simp

theorem usual_swapped {x y : Native.Node} {v w : Native.Value} {kind name : String} {line : Option UInt32}
    {before after : List (String × Native.Value)} (swaps : Swaps x y v w)
    (usual : route (.mk kind line (before ++ (name, v) :: after)) = .usual) :
    route (.mk kind line (before ++ (name, w) :: after)) = .usual := by
  refine usual_kept usual fun key => ?_
  simp only [lookup_append, lookup_cons]
  by_cases same : name = key
  · cases Keyed.lookup? key before <;> simp [same, swaps_plain swaps]
  · simp [same]

theorem index_wraps {line : Option UInt32} {before : List (String × Native.Value)}
    (first : ∀ f ∈ before, f.1 ≠ "value") (n : Native.Node) (after : List (String × Native.Value)) :
    (standard r).convertNode (.mk "Index" line (before ++ ("value", .node n) :: after)) =
      (standard r).convertNode n := by
  have wraps : route (.mk "Index" line (before ++ ("value", .node n) :: after)) = .wrapped n := by
    refine route_wrapped.mpr ⟨rfl, ?_⟩
    have absent : Keyed.lookup? "value" before = none := by
      simpa [Keyed.lookup?] using fun a b member => first (a, b) member
    simp [Native.Node.fields, lookup_append, lookup_cons, absent]
  rw [convertNode_route, wraps, follow]

theorem items_answer {line : Option UInt32} {v w : Native.Value}
    (same : answer ((standard r).convertValue line v) = answer ((standard r).convertValue line w))
    (before after : List Native.Value) :
    answer ((standard r).convertItems line (before ++ v :: after)) =
      answer ((standard r).convertItems line (before ++ w :: after)) := by
  induction before with
  | nil => simp [convertItems_cons, same]
  | cons u before ih => simp [convertItems_cons, ih]

theorem swaps_apart {x y : Native.Node} {v w : Native.Value} (swaps : Swaps x y v w)
    (left : answer ((standard r).convertNode x) = none) (right : answer ((standard r).convertNode y) = none)
    (line : Option UInt32) : ∃ before after, Apart before after ((standard r).convertValue line v)
      ((standard r).convertValue line w) ((standard r).convertNode x) ((standard r).convertNode y) := by
  induction swaps generalizing line with
  | here =>
    refine ⟨[], [], ?_⟩
    simp [Apart, convertValue_node, left, right]
  | @item v w before after part ih =>
    obtain ⟨pre, post, same, saidLeft, saidRight⟩ := ih line
    refine ⟨before.flatMap (fun v => messages ((standard r).convertValue line v)) ++ pre,
      post ++ after.flatMap (fun v => messages ((standard r).convertValue line v)), ?_, ?_, ?_⟩
    · simp [convertValue_list, items_answer r same]
    · simp [convertValue_list, convertItems_messages, saidLeft]
    · simp [convertValue_list, convertItems_messages, saidRight]
  | @field kind nodeLine name v w before after usual part ih =>
    obtain ⟨pre, post, same, saidLeft, saidRight⟩ := ih nodeLine
    have usualRight := usual_swapped part usual
    have fields : answer ((standard r).convertFields nodeLine (before ++ (name, v) :: after)) =
        answer ((standard r).convertFields nodeLine (before ++ (name, w) :: after)) := by
      simp [convertFields_answer, List.filterMap_cons, same]
    refine ⟨messages ((standard r).convertFields nodeLine before) ++ pre,
      post ++ (messages ((standard r).convertFields nodeLine after) ++ messages ((standard r).build kind
        (answer ((standard r).convertFields nodeLine (before ++ (name, w) :: after))) nodeLine)), ?_, ?_, ?_⟩
    · rw [(convertValue_node _ line _).1, (convertValue_node _ line _).1]
      exact congrArg (Option.map Value.node) (usual_answer r usual usualRight fields)
    · rw [(convertValue_node _ line _).2, field_around r usual, saidLeft, fields]
      simp
    · rw [(convertValue_node _ line _).2, field_around r usualRight, saidRight]
      simp
  | @wrapped nodeLine m k before after first part ih =>
    have shape := ih line
    simpa only [Apart, convertValue_node, index_wraps r first] using shape

def reported : Except TranslationError Node → List Message
  | .ok _ => []
  | .error e => e.messages

theorem convert_reported (t : Translator) (n : Native.Node) :
    reported (t.convert n).1 = messages (t.convertNode n) := by
  unfold convert messages
  rcases (t.convertNode n).run .empty with ⟨found, ⟨logged⟩⟩
  cases logged with
  | nil => cases found <;> simp [reported, ErrorLog.result, ErrorLog.isEmpty]
  | cons m rest => simp [reported, ErrorLog.result, ErrorLog.isEmpty]

theorem passes_forgotten (earlier : List Native.Node) :
    earlier.foldl (fun t n => (t.convert n).2) (standard r) = standard r := by
  induction earlier with
  | nil => rfl
  | cons n rest ih => exact ih

theorem usual_own {n : Native.Node} (usual : route n = .usual) :
    (remarks r (.node n)).length ≤ 1 ∧
      ((answer ((standard r).convertNode n)).isSome ↔ remarks r (.node n) = []) := by
  have own : messages ((standard r).build n.kind (converted r n) n.line) = remarks r (.node n) := by
    simp only [remarks, usual, texts, build_refusal, standard]
  have silent := build_silent (standard r) n.kind (converted r n) n.line
  rw [own] at silent
  constructor
  · simp only [remarks, usual, texts, List.length_map]
    cases refusal? r n.kind (converted r n) <;> simp
  · rw [convertNode_route, usual, (usual_built _ n).1, convertFields_answer]
    change (answer ((standard r).build n.kind (converted r n) n.line)).isSome ↔ _
    cases built : answer ((standard r).build n.kind (converted r n) n.line) <;> simpa [built] using silent

-- Whatever was translated before, a translation reports what the places of its tree have to say, one after
-- the other. A node that is built from its fields comes behind them, with one message at most, and is made
-- exactly without one; a wrapper is the node in it. A field that fails, as a sequence does with any of its
-- elements, is for such a node as if it were not there, and what is said of a part that yields nothing is
-- all that depends on it.
theorem log_composed (earlier : List Native.Node) (root : Native.Node) :
    reported ((earlier.foldl (fun t n => (t.convert n).2) (standard r)).convert root).1 =
        (places root).flatMap (remarks r) ∧
      (∀ n, .node n ∈ places root ↔ Visits root n) ∧
      (∀ n, messages ((standard r).convertNode n) = (places n).flatMap (remarks r)) ∧
      (∀ n, route n = .usual →
        places n = (n.fields.flatMap fun f => valuePlaces n.line f.2) ++ [.node n] ∧
          (remarks r (.node n)).length ≤ 1 ∧
          ((answer ((standard r).convertNode n)).isSome ↔ remarks r (.node n) = [])) ∧
      (∀ n inner, route n = .wrapped inner → (standard r).convertNode n = (standard r).convertNode inner) ∧
      (∀ line items, answer ((standard r).convertValue line (.list items)) = none ↔
        ∃ v ∈ items, answer ((standard r).convertValue line v) = none) ∧
      (∀ kind line before name v after, route (.mk kind line (before ++ (name, v) :: after)) = .usual →
        answer ((standard r).convertValue line v) = none →
        ((∀ f ∈ after, f.1 ≠ name) → route (.mk kind line (before ++ after)) = .usual) ∧
          (route (.mk kind line (before ++ after)) = .usual →
            AsIfAbsent r (.mk kind line (before ++ (name, v) :: after)) (.mk kind line (before ++ after)) v)) ∧
      ∀ x y other, Swaps x y (.node root) (.node other) →
        answer ((standard r).convertNode x) = none → answer ((standard r).convertNode y) = none →
        ∃ before after, Apart before after ((standard r).convertNode root) ((standard r).convertNode other)
          ((standard r).convertNode x) ((standard r).convertNode y) := by
  refine ⟨?_, fun n => ⟨places_visited, visits_places⟩, node_messages r, ?_, ?_, ?_, ?_, ?_⟩
  · rw [passes_forgotten, convert_reported, node_messages]
  · intro n usual
    exact ⟨places_usual usual, usual_own r usual⟩
  · intro n inner wraps
    rw [convertNode_route, wraps, follow]
  · intro line items
    rw [(convertValue_list _ line items).1, Option.map_eq_none_iff, items_fail]
  · intro kind line before name v after usual failed
    exact ⟨usual_shorter usual, fun usualShorter => failed_field r usual usualShorter failed⟩
  · intro x y other swaps left right
    obtain ⟨before, after, same, saidLeft, saidRight⟩ := swaps_apart r swaps left right none
    rw [(convertValue_node _ none root).2] at saidLeft
    rw [(convertValue_node _ none other).2] at saidRight
    rw [(convertValue_node _ none root).1, (convertValue_node _ none other).1] at same
    refine ⟨before, after, ?_, saidLeft, saidRight⟩
    exact Option.map_injective (fun _ _ => Value.node.inj) same

def bogus (line : UInt32) : Native.Node := .mk "Bogus" (some line) []

def bogusBlock (line : UInt32) : Native.Node :=
  .mk "Module" none [("body", .list [.node (.mk "Pass" (some 1) []), .node (bogus line)])]

-- A block with a statement of an unknown kind: it is made without its body, and another such statement
-- changes the line in the message and nothing else.
theorem bogusBlock_composed :
    reported ((standard blockKinds).convert (bogusBlock 2)).1 = [⟨"unsupported syntax: Bogus", some 2⟩] ∧
      AsIfAbsent blockKinds (bogusBlock 2) (.mk "Module" none [])
        (.list [.node (.mk "Pass" (some 1) []), .node (bogus 2)]) ∧
      ∃ before after, Apart before after ((standard blockKinds).convertNode (bogusBlock 2))
        ((standard blockKinds).convertNode (bogusBlock 3)) ((standard blockKinds).convertNode (bogus 2))
        ((standard blockKinds).convertNode (bogus 3)) := by
  obtain ⟨said, -, -, -, -, -, fields, parts⟩ := log_composed blockKinds [] (bogusBlock 2)
  have absent := fields "Module" none [] "body" (.list [.node (.mk "Pass" (some 1) []), .node (bogus 2)]) [] rfl rfl
  refine ⟨said.trans rfl, absent.2 (absent.1 fun f none => by cases none), ?_⟩
  exact parts (bogus 2) (bogus 3) (bogusBlock 3)
    (.field [] [] rfl (.item [.node (.mk "Pass" (some 1) [])] [] .here)) rfl rfl

def illNumber : Native.Node := .mk "Num" (some 2) [("n", .str "12")]

-- A wrapper whose node fails is silent about it, though it complains when it has none.
theorem wrapper_unlike_absent :
    answer ((standard coreRegistry).convertValue (some 1) (.node illNumber)) = none ∧
      ¬ AsIfAbsent coreRegistry (.mk "Index" (some 1) [("value", .node illNumber)]) (.mk "Index" (some 1) [])
        (.node illNumber) := by
  refine ⟨rfl, fun absent => ?_⟩
  obtain ⟨-, before, after, said, saidShorter⟩ := absent
  have inner : messages ((standard coreRegistry).convertValue (some 1) (.node illNumber)) =
      [⟨"unrecognized numeric literal of type str", some 2⟩] := rfl
  have whole : messages ((standard coreRegistry).convertNode
      (.mk "Index" (some 1) [("value", .node illNumber)])) =
      [⟨"unrecognized numeric literal of type str", some 2⟩] := rfl
  have shorter : messages ((standard coreRegistry).convertNode (.mk "Index" (some 1) [])) =
      [⟨"Index without a value", some 1⟩] := rfl
  have lengths := congrArg List.length said
  have lengthsShorter := congrArg List.length saidShorter
  simp only [Native.Node.line, inner, whole, shorter, List.length_append, List.length_cons,
    List.length_nil] at lengths lengthsShorter
  omega

end Translator

end TreeLowering
