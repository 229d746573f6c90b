import TreeLowering.Proofs.Complaints

namespace TreeLowering

namespace Native

def Value.isPrimitive : Value → Bool
  | .node _ | .list _ => false
  | _ => true

-- A number as such; a text that looks like one is none.
def Value.numeral? : Value → Option Value
  | .int n => some (.int n)
  | .bigInt text => some (.bigInt text)
  | .float x => some (.float x)
  | .complex z => some (.complex z)
  | _ => Option.none

def Value.singleton? : Value → Option Value
  | .str "True" => some (.bool true)
  | .str "False" => some (.bool false)
  | .str "None" => some .none
  | _ => Option.none

-- The value of a literal in the old spelling. A number and a name go by their first field, and a literal of
-- another kind has that field alone.
def oldLiteral? (kind : String) (fields : List (String × Value)) : Option Value :=
  if kind = "Num" then (Keyed.lookup? "n" fields).bind Value.numeral?
  else if kind = "Name" then (Keyed.lookup? "id" fields).bind Value.singleton?
  else match kind, fields with
    | "Str", [("s", .str text)] => some (.str text)
    | "Bytes", [("s", .bytes bs)] => some (.bytes bs)
    | "NameConstant", [("value", .bool b)] => some (.bool b)
    | "NameConstant", [("value", .none)] => some .none
    | _, _ => none

-- An import of language features is read as it is written.
def isFutureImport (kind : String) (fields : List (String × Value)) : Bool :=
  kind == "ImportFrom" && match Keyed.lookup? "module" fields with
    | some (.str module) => module == futureModule
    | _ => false

mutual
-- The tree in the new spelling, with the lines that it has.
def Node.modern : Node → Node
  | .mk kind line fields =>
    match oldLiteral? kind fields with
    | some v => .mk "Constant" line [("value", v)]
    | none =>
      if isFutureImport kind fields then .mk kind line fields
      else match (if kind = "Index" then Node.modernWrapped fields else none) with
        | some inner => inner
        | none => .mk kind line (Value.modernFields fields)
termination_by structural n => n

def Node.modernWrapped : List (String × Value) → Option Node
  | [] => none
  | (name, v) :: rest =>
    if name = "value" then
      match v with
      | .node inner => some inner.modern
      | _ => none
    else Node.modernWrapped rest
termination_by structural fs => fs

def Value.modernFields : List (String × Value) → List (String × Value)
  | [] => []
  | (name, v) :: rest => (name, v.modern) :: Value.modernFields rest
termination_by structural fs => fs

def Value.modern : Value → Value
  | .node n => .node n.modern
  | .list items => .list (Value.modernItems items)
  | v => v
termination_by structural v => v

def Value.modernItems : List Value → List Value
  | [] => []
  | v :: rest => v.modern :: Value.modernItems rest
termination_by structural vs => vs
end

theorem modern_primitive {v : Value} (primitive : v.isPrimitive = true) : v.modern = v := by
  cases v <;> first | rfl | cases primitive

theorem lookup_modern (key : String) (fields : List (String × Value)) :
    Keyed.lookup? key (Value.modernFields fields) = (Keyed.lookup? key fields).map Value.modern := by
  induction fields with
  | nil => rfl
  | cons field rest ih =>
    obtain ⟨name, v⟩ := field
    rw [Value.modernFields, Translator.lookup_cons, Translator.lookup_cons, ih]
    split <;> rfl

theorem modernWrapped_value (fields : List (String × Value)) : Node.modernWrapped fields =
    match Keyed.lookup? "value" fields with
    | some (.node inner) => some inner.modern
    | _ => none := by
  induction fields with
  | nil => rfl
  | cons field rest ih =>
    obtain ⟨name, v⟩ := field
    rw [Translator.lookup_cons]
    unfold Node.modernWrapped
    by_cases same : name = "value"
    · rw [if_pos same, if_pos same]
      cases v <;> rfl
    · rw [if_neg same, if_neg same, ih]

end Native

namespace Translator

variable {r : Registry} {kind : String} {line : Option UInt32} {fields : List (String × Native.Value)}

theorem constant_converts (r : Registry) (line : Option UInt32) (v : Native.Value) :
    (standard r).convertNode (.mk "Constant" line [("value", v)]) =
      (standard r).buildLiteral (constant (some v)) line := rfl

theorem number_numeral {v w : Native.Value} (found : v.numeral? = some w) :
    number (some v) = constant (some w) := by
  cases v <;> cases found <;> rfl

theorem singleton_constant_value {v w : Native.Value} (found : v.singleton? = some w) :
    ∃ made, singleton? (some v) = some made ∧ constant (some w) = .ok ("NameConstant", "value", made) := by
  unfold Native.Value.singleton? at found
  split at found <;> cases found <;> exact ⟨_, rfl, rfl⟩

theorem literal_converts (r : Registry) (line : Option UInt32) {v : Native.Value}
    (found : Native.oldLiteral? kind fields = some v) : (standard r).convertNode (.mk kind line fields) =
      (standard r).buildLiteral (constant (some v)) line := by
  unfold Native.oldLiteral? at found
  split at found
  next isNum =>
    subst isNum
    obtain ⟨w, here, numeral⟩ := Option.bind_eq_some_iff.mp found
    change (standard r).buildLiteral (number (Keyed.lookup? "n" fields)) line = _
    rw [here, number_numeral numeral]
  split at found
  next isName =>
    subst isName
    obtain ⟨w, here, singleton⟩ := Option.bind_eq_some_iff.mp found
    obtain ⟨made, read, same⟩ := singleton_constant_value singleton
    have literal : route (.mk "Name" line fields) = .literal (.ok ("NameConstant", "value", made)) := by
      change nameRoute fields = _
      unfold nameRoute
      rw [here, read]
    rw [convertNode_route, literal, same]
    rfl
  split at found <;> cases found <;> rfl

-- A number and a constant have no node and no sequence in them: a refusal would name its old kind.
def LiteralsPrimitive (n : Native.Node) : Prop :=
  n.kind ∈ ["Num", "Constant"] → ∀ f ∈ n.fields, f.2.isPrimitive = true

instance (n : Native.Node) : Decidable (LiteralsPrimitive n) :=
  inferInstanceAs (Decidable (_ → _))

theorem fields_modern (primitive : ∀ f ∈ fields, f.2.isPrimitive = true) :
    Native.Value.modernFields fields = fields := by
  induction fields with
  | nil => rfl
  | cons field rest ih =>
    rw [List.forall_mem_cons] at primitive
    rw [Native.Value.modernFields, Native.modern_primitive primitive.1, ih primitive.2]

theorem usual_modern (usual : route (.mk kind line fields) = .usual) :
    route (.mk kind line (Native.Value.modernFields fields)) = .usual := by
  refine usual_kept usual fun key => ?_
  rw [Native.lookup_modern]
  cases found : Keyed.lookup? key fields with
  | none => exact .inl rfl
  | some v =>
    cases v with
    | node n => exact .inr nofun
    | list items => exact .inr nofun
    | _ => exact .inl rfl

theorem bare_modern (bare : ∀ inner, Keyed.lookup? "value" fields ≠ some (.node inner)) :
    wrapperRoute (Native.Value.modernFields fields) = .bare ∧ wrapperRoute fields = .bare := by
  unfold wrapperRoute
  rw [Native.lookup_modern]
  cases found : Keyed.lookup? "value" fields with
  | none => exact ⟨rfl, rfl⟩
  | some v =>
    cases v with
    | node inner => exact absurd found (bare inner)
    | _ => exact ⟨rfl, rfl⟩

theorem modernWrapped_bare (bare : ∀ inner, Keyed.lookup? "value" fields ≠ some (.node inner)) :
    Native.Node.modernWrapped fields = none := by
  rw [Native.modernWrapped_value]
  split
  next held => exact absurd held (bare _)
  next => rfl

theorem wrapper_alike (line : Option UInt32) (wrapper : kind = "Index")
    (bare : ∀ inner, Keyed.lookup? "value" fields ≠ some (.node inner)) :
    (standard r).convertNode (.mk kind line (Native.Value.modernFields fields)) =
      (standard r).convertNode (.mk kind line fields) := by
  subst wrapper
  obtain ⟨modern, old⟩ := bare_modern bare
  rw [convertNode_route, convertNode_route]
  change (standard r).follow _ (wrapperRoute (Native.Value.modernFields fields)) =
    (standard r).follow _ (wrapperRoute fields)
  rw [modern, old]
  rfl

mutual
theorem value_modern (v : Native.Value)
    (below : ∀ n, v.Holds n → (standard r).convertNode n.modern = (standard r).convertNode n) :
    (standard r).convertValue line v.modern = (standard r).convertValue line v := by
  cases v with
  | node n =>
    rw [Native.Value.modern, convertValue, convertValue, below n (.node n)]
  | list items =>
    rw [Native.Value.modern, convertValue, convertValue,
      items_modern items fun v inside n held => below n (.item inside held)]
  | _ => rfl
termination_by structural v

theorem items_modern (items : List Native.Value)
    (below : ∀ v ∈ items, ∀ n, v.Holds n → (standard r).convertNode n.modern = (standard r).convertNode n) :
    (standard r).convertItems line (Native.Value.modernItems items) = (standard r).convertItems line items := by
  cases items with
  | nil => rfl
  | cons v rest =>
    rw [Native.Value.modernItems, convertItems, convertItems, value_modern v (below v (List.mem_cons_self ..)),
      items_modern rest fun w inside => below w (List.mem_cons_of_mem _ inside)]
termination_by structural items
end

theorem convertFields_modern
    (below : ∀ f ∈ fields, ∀ n, f.2.Holds n → (standard r).convertNode n.modern = (standard r).convertNode n) :
    (standard r).convertFields line (Native.Value.modernFields fields) = (standard r).convertFields line fields := by
  induction fields with
  | nil => rfl
  | cons field rest ih =>
    obtain ⟨name, v⟩ := field
    rw [List.forall_mem_cons] at below
    rw [Native.Value.modernFields, convertFields, convertFields, value_modern v below.1, ih below.2]

theorem singleton_none {found : Option Native.Value} (other : found.bind Native.Value.singleton? = none) :
    singleton? found = none := by
  unfold singleton?
  split <;> first | rfl | cases other

theorem other_usual (line : Option UInt32) (handled : kind ∉ ["Num", "Constant", "Index"])
    (other : Native.oldLiteral? kind fields = none) (read : Native.isFutureImport kind fields = false) :
    route (.mk kind line fields) = .usual := by
  refine route_usual.mpr ⟨handled, fun isName => ?_, fun imports module => ?_⟩
  · change kind = "Name" at isName
    subst isName
    exact singleton_none other
  · change kind = "ImportFrom" at imports
    subst imports
    change Keyed.lookup? "module" fields = _ at module
    unfold Native.isFutureImport at read
    rw [module] at read
    simp at read

theorem modern_rest (line : Option UInt32) (other : Native.oldLiteral? kind fields = none)
    (read : Native.isFutureImport kind fields = false) : (Native.Node.mk kind line fields).modern =
      match (if kind = "Index" then Native.Node.modernWrapped fields else none) with
      | some inner => inner
      | none => .mk kind line (Native.Value.modernFields fields) := by
  rw [Native.Node.modern, other, read]
  rfl

theorem held_smaller {v : Native.Value} {n : Native.Node} (held : v.Holds n) : sizeOf n < sizeOf v := by
  induction held with
  | node n =>
    rw [Native.Value.node.sizeOf_spec]
    omega
  | item member held ih =>
    have part := List.sizeOf_lt_of_mem member
    rw [Native.Value.list.sizeOf_spec]
    omega

theorem rest_alike (line : Option UInt32) (handled : kind ∉ ["Num", "Constant", "Index"])
    (other : Native.oldLiteral? kind fields = none) (read : Native.isFutureImport kind fields = false)
    (below : ∀ f ∈ fields, ∀ n, f.2.Holds n → (standard r).convertNode n.modern = (standard r).convertNode n) :
    (standard r).convertNode (.mk kind line (Native.Value.modernFields fields)) =
      (standard r).convertNode (.mk kind line fields) := by
  have usual := other_usual line handled other read
  rw [convertNode_route, convertNode_route, usual_modern usual, usual]
  unfold follow
  change (do (standard r).build kind (← (standard r).convertFields line (Native.Value.modernFields fields)) line) = _
  rw [convertFields_modern below]
  rfl

-- The induction is on the tree: a literal is settled at once, a wrapper goes with its node and every other node
-- with the nodes in its fields.
theorem node_modern : ∀ n : Native.Node, (∀ m, Visits n m → LiteralsPrimitive m) →
    (standard r).convertNode n.modern = (standard r).convertNode n
  | .mk kind line fields, primitive => by
    cases found : Native.oldLiteral? kind fields with
    | some v => rw [Native.Node.modern, found, literal_converts r line found, ← constant_converts]
    | none =>
      cases read : Native.isFutureImport kind fields with
      | true =>
        rw [Native.Node.modern, found, read]
        rfl
      | false =>
        rw [modern_rest line found read]
        by_cases wrapper : kind = "Index"
        · rw [if_pos wrapper]
          by_cases full : ∃ inner, Keyed.lookup? "value" fields = some (.node inner)
          · obtain ⟨inner, held⟩ := full
            have wraps : route (.mk kind line fields) = .wrapped inner := route_wrapped.mpr ⟨wrapper, held⟩
            have smaller := wrapped_smaller wraps
            rw [convertNode_route r (.mk kind line fields), wraps, Native.modernWrapped_value, held]
            exact node_modern inner fun m visited => primitive m (.inside wraps visited)
          · rw [not_exists] at full
            rw [modernWrapped_bare full]
            exact wrapper_alike line wrapper full
        · rw [if_neg wrapper]
          by_cases literal : kind ∈ ["Num", "Constant"]
          · have same := fields_modern (primitive _ (.self _) literal)
            change Native.Value.modernFields fields = fields at same
            change (standard r).convertNode (.mk kind line (Native.Value.modernFields fields)) = _
            rw [same]
          · have handled : kind ∉ ["Num", "Constant", "Index"] := by
              simp only [List.mem_cons, List.not_mem_nil, or_false, not_or] at literal ⊢
              exact ⟨literal.1, literal.2, wrapper⟩
            refine rest_alike line handled found read fun f inside m held => ?_
            have inField : sizeOf f.2 < sizeOf (Native.Node.mk kind line fields) := field_smaller inside
            have smaller := held_smaller held
            have usual := other_usual line handled found read
            exact node_modern m fun k visited => primitive k (.part usual inside held visited)
termination_by n => sizeOf n
decreasing_by
  all_goals
    rw [Native.Node.mk.sizeOf_spec] at *
    omega

-- The same tree, or failures with the same messages. Only the summary of a failure without any can differ.
inductive Alike : Except TranslationError Node → Except TranslationError Node → Prop where
  | same (tree : Node) : Alike (.ok tree) (.ok tree)
  | failed {e other : TranslationError} (messages : e.messages = other.messages)
      (summary : e.messages ≠ [] → e = other) : Alike (.error e) (.error other)

theorem convert_alike {n m : Native.Node}
    (same : (standard r).convertNode n = (standard r).convertNode m) :
    Alike ((standard r).convert n).1 ((standard r).convert m).1 := by
  unfold convert
  rw [same]
  rcases ((standard r).convertNode m).run .empty with ⟨found, ⟨logged⟩⟩
  cases logged with
  | nil =>
    cases found with
    | none => exact .failed rfl fun messages => absurd rfl messages
    | some tree => exact .same tree
  | cons message rest => exact .failed rfl fun _ => rfl

-- A tree and the same tree in the new spelling translate alike, whatever table of kinds there is.
theorem modern_alike (r : Registry) (tree : Native.Node)
    (primitive : ∀ n, Visits tree n → LiteralsPrimitive n) :
    Alike ((standard r).convert tree).1 ((standard r).convert tree.modern).1 :=
  convert_alike (node_modern tree primitive).symm

def oldTuple (last : Native.Node) : Native.Node :=
  .mk "Tuple" (some 1) [
    ("elts", .list [
      .node (.mk "Num" (some 1) [("n", .int 3)]),
      .node (.mk "Str" (some 2) [("s", .str "a")]),
      .node (.mk "Bytes" (some 3) [("s", .bytes [97])]),
      .node (.mk "NameConstant" (some 4) [("value", .none)]),
      .node (.mk "Name" (some 5) [("id", .str "True"), ("ctx", .node (.mk "Load" none []))]),
      .node (.mk "Index" none [("value", .node (.mk "Index" none [("value", .node last)]))])]),
    ("ctx", .node (.mk "Load" none []))]

def newTuple (last : Native.Node) : Native.Node :=
  .mk "Tuple" (some 1) [
    ("elts", .list [
      .node (.mk "Constant" (some 1) [("value", .int 3)]),
      .node (.mk "Constant" (some 2) [("value", .str "a")]),
      .node (.mk "Constant" (some 3) [("value", .bytes [97])]),
      .node (.mk "Constant" (some 4) [("value", .none)]),
      .node (.mk "Constant" (some 5) [("value", .bool true)]),
      .node last]),
    ("ctx", .node (.mk "Load" none []))]

def plainName : Native.Node := .mk "Name" (some 7) [("id", .str "x"), ("ctx", .node (.mk "Load" none []))]

def tooLarge (kind field : String) : Native.Node := .mk kind (some 7) [(field, .bigInt "9223372036854775808")]

-- The first tuple is translated; the last item of the second is out of range, in either spelling at line 7.
theorem tuples_alike :
    Alike ((standard coreRegistry).convert (oldTuple plainName)).1
      ((standard coreRegistry).convert (newTuple plainName)).1 ∧
    Alike ((standard coreRegistry).convert (oldTuple (tooLarge "Num" "n"))).1
      ((standard coreRegistry).convert (newTuple (tooLarge "Constant" "value"))).1 ∧
    ((standard coreRegistry).convert (oldTuple plainName)).1.isOk ∧
    reported ((standard coreRegistry).convert (oldTuple (tooLarge "Num" "n"))).1 =
      [⟨"integer literal 9223372036854775808 does not fit in 64 bits", some 7⟩] := by
  have checked : ∀ tree, (places tree).all (fun
      | .node n => decide (LiteralsPrimitive n)
      | _ => true) → ∀ n, Visits tree n → LiteralsPrimitive n := by
    intro tree all n visited
    exact of_decide_eq_true (List.all_eq_true.mp all _ (visits_places visited))
  have named := modern_alike coreRegistry (oldTuple plainName) (checked _ (by decide +kernel))
  have large := modern_alike coreRegistry (oldTuple (tooLarge "Num" "n")) (checked _ (by decide +kernel))
  have modern : (oldTuple plainName).modern = newTuple plainName := by rfl
  have modernLarge : (oldTuple (tooLarge "Num" "n")).modern = newTuple (tooLarge "Constant" "value") := by rfl
  rw [modern] at named
  rw [modernLarge] at large
  exact ⟨named, large, by decide +kernel⟩

end Translator

end TreeLowering
