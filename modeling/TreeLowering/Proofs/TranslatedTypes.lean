import TreeLowering.Proofs.Converting
import TreeLowering.Proofs.WellTyped

namespace TreeLowering.Translator

-- Whatever the log is, the result satisfies `P`.
def Gives {α : Type} (c : Converting α) (P : α → Prop) : Prop := ∀ log, P (c.run log).1

theorem gives_pure {α : Type} {a : α} {P : α → Prop} (holds : P a) : Gives (pure a : Converting α) P :=
  fun _ => holds

theorem Gives.bind {α β : Type} {c : Converting α} {k : α → Converting β} {P : α → Prop} {Q : β → Prop}
    (first : Gives c P) (rest : ∀ a, P a → Gives (k a) Q) : Gives (c >>= k) Q :=
  fun log => rest _ (first log) _

-- Handlers from outside keep to the kinds of the registry.
def Trusted (t : Translator) : Prop :=
  ∀ kind convert, Keyed.lookup? kind t.handlers = some (.custom convert) → ∀ n made, convert n = some made →
    made.WellTyped t.registry

-- A property of values that the constructions of a translator and its handlers from outside carry along.
structure Carries (t : Translator) (P : Value → Prop) : Prop where
  constant (v : Value) : v.isConstant = true → P v
  list (items : List Value) : (∀ v ∈ items, P v) → P (.list items)
  made (schema : Schema) (named : List (String × Value)) (n : Node) : schema ∈ t.registry.schemas →
    (∀ f ∈ named, P f.2) → Node.ofFields schema named = .ok n → P (.node n)
  custom (kind : String) (convert : Native.Node → Option Node) :
    Keyed.lookup? kind t.handlers = some (.custom convert) → ∀ n made, convert n = some made → P (.node made)

def IfSome {α : Type} (P : α → Prop) (found : Option α) : Prop := ∀ a, found = some a → P a

theorem fail_gives {α : Type} {P : α → Prop} (text : String) (line : Option UInt32) :
    Gives (fail (α := α) text line) (IfSome P) := fun _ => nofun

variable {t : Translator} {P : Value → Prop} {line : Option UInt32}

def Carried (P : Value → Prop) (n : Node) : Prop := P (.node n)

def CarriedFields (P : Value → Prop) (fields : List (String × Value)) : Prop := ∀ f ∈ fields, P f.2

theorem build_gives (carries : t.Carries P) {kind : String} {fields : List (String × Value)}
    (values : CarriedFields P fields) : Gives (t.build kind fields line) (IfSome (Carried P)) := by
  unfold build
  cases found : t.registry.get? kind with
  | none => exact fail_gives _ _
  | some schema =>
    dsimp only
    split
    · next made ok =>
      refine gives_pure fun n same => ?_
      cases same
      exact carries.made schema _ _ (List.mem_of_find?_eq_some found)
        (fun f member => values f (List.mem_filter.mp member).1) ok
    · exact fail_gives _ _

theorem singleField_gives (carries : t.Carries P) {kind field : String} {v : Value} (carried : P v) :
    Gives (t.build kind [(field, v)] line) (IfSome (Carried P)) :=
  build_gives carries fun _ member => List.mem_singleton.mp member ▸ carried

theorem singleton_constant {v : Option Native.Value} {w : Value} (found : singleton? v = some w) :
    w.isConstant = true := by
  unfold singleton? at found
  split at found <;> cases found <;> rfl

theorem number_constant {v : Option Native.Value} {kind field : String} {w : Value}
    (literal : number v = .ok (kind, field, w)) : w.isConstant = true := by
  unfold number at literal
  split at literal <;> cases literal <;> rfl

theorem constant_constant {v : Option Native.Value} {kind field : String} {w : Value}
    (literal : constant v = .ok (kind, field, w)) : w.isConstant = true := by
  unfold constant at literal
  split at literal <;> cases literal <;> rfl

theorem buildLiteral_gives (carries : t.Carries P) {literal : Except String Literal}
    (constants : ∀ kind field w, literal = .ok (kind, field, w) → w.isConstant = true) :
    Gives (t.buildLiteral literal line) (IfSome (Carried P)) := by
  cases literal with
  | error text => exact fail_gives _ _
  | ok literal => exact singleField_gives carries (carries.constant _ (constants _ _ _ rfl))

theorem features_gives (carries : t.Carries P) (items : List Native.Value) :
    Gives (features line items) fun found => ∀ v ∈ found, P v := by
  induction items with
  | nil => exact gives_pure (List.forall_mem_nil _)
  | cons item rest ih =>
    unfold features
    split
    · exact ih
    · split
      · refine ih.bind fun found carried => gives_pure (List.forall_mem_cons.mpr ⟨?_, carried⟩)
        exact carries.constant _ rfl
      · exact (show Gives (fail _ line) fun _ : Option Unit => True from fun _ => trivial).bind fun _ _ => ih

theorem buildFeatures_gives (carries : t.Carries P) {names : Option Native.Value} :
    Gives (t.buildFeatures names line) (IfSome (Carried P)) := by
  refine (features_gives carries _).bind fun found carried => ?_
  split
  · exact gives_pure nofun
  · exact singleField_gives carries (carries.list _ carried)

-- The five conversions call each other, so what their results carry is shown by one induction over native
-- trees.
mutual
theorem convertNode_gives (carries : t.Carries P) (n : Native.Node) :
    Gives (t.convertNode n) (IfSome (Carried P)) := by
  cases n with
  | mk kind line fields =>
    have usual : Gives (do t.build kind (← t.convertFields line fields) line) (IfSome (Carried P)) :=
      (convertFields_gives carries line fields).bind fun found carried => build_gives carries carried
    unfold convertNode
    dsimp only
    cases handled : Keyed.lookup? kind t.handlers with
    | none => exact usual
    | some handler =>
      cases handler with
      | name =>
        dsimp only
        split
        · next found =>
          exact singleField_gives carries (carries.constant _ (singleton_constant found))
        · exact usual
      | number => exact buildLiteral_gives carries fun _ _ _ literal => number_constant literal
      | constant => exact buildLiteral_gives carries fun _ _ _ literal => constant_constant literal
      | importFrom =>
        dsimp only
        split
        · split
          · exact buildFeatures_gives carries
          · exact usual
        · exact usual
      | index => exact convertWrapped_gives carries line fields
      | custom convert => exact gives_pure fun made same => carries.custom kind convert handled _ made same
termination_by structural n

theorem convertFields_gives (carries : t.Carries P) (line : Option UInt32)
    (fields : List (String × Native.Value)) : Gives (t.convertFields line fields) (CarriedFields P) := by
  cases fields with
  | nil => exact gives_pure (List.forall_mem_nil _)
  | cons field rest =>
    obtain ⟨name, v⟩ := field
    unfold convertFields
    refine (convertValue_gives carries line v).bind fun found carried => ?_
    refine (convertFields_gives carries line rest).bind fun others ofOthers => ?_
    cases found with
    | none => exact gives_pure ofOthers
    | some w => exact gives_pure (List.forall_mem_cons.mpr ⟨carried w rfl, ofOthers⟩)
termination_by structural fields

theorem convertWrapped_gives (carries : t.Carries P) (line : Option UInt32)
    (fields : List (String × Native.Value)) :
    Gives (t.convertWrapped line fields) (IfSome (Carried P)) := by
  cases fields with
  | nil => exact fail_gives _ _
  | cons field rest =>
    obtain ⟨name, v⟩ := field
    unfold convertWrapped
    split
    · cases v with
      | node inner => exact convertNode_gives carries inner
      | _ => exact fail_gives _ _
    · exact convertWrapped_gives carries line rest
termination_by structural fields

theorem convertValue_gives (carries : t.Carries P) (line : Option UInt32) (v : Native.Value) :
    Gives (t.convertValue line v) (IfSome P) := by
  cases v with
  | node n =>
    unfold convertValue
    refine (convertNode_gives carries n).bind fun found carried => gives_pure fun w same => ?_
    obtain ⟨made, rfl, rfl⟩ := Option.map_eq_some_iff.mp same
    exact carried made rfl
  | list items =>
    unfold convertValue
    refine (convertItems_gives carries line items).bind fun found carried => gives_pure fun w same => ?_
    obtain ⟨made, rfl, rfl⟩ := Option.map_eq_some_iff.mp same
    exact carries.list _ (carried made rfl)
  | bigInt text => exact fail_gives _ _
  | foreign text => exact fail_gives _ _
  | _ =>
    refine gives_pure fun w same => ?_
    cases same
    exact carries.constant _ rfl
termination_by structural v

theorem convertItems_gives (carries : t.Carries P) (line : Option UInt32) (items : List Native.Value) :
    Gives (t.convertItems line items) (IfSome fun made => ∀ v ∈ made, P v) := by
  cases items with
  | nil => exact gives_pure fun made same => by cases same; exact List.forall_mem_nil _
  | cons v rest =>
    unfold convertItems
    refine (convertValue_gives carries line v).bind fun found carried => ?_
    refine (convertItems_gives carries line rest).bind fun others ofOthers => ?_
    split
    · refine gives_pure fun made same => ?_
      cases same
      exact List.forall_mem_cons.mpr ⟨carried _ rfl, ofOthers _ rfl⟩
    · exact gives_pure nofun
termination_by structural items
end

theorem convert_carried (carries : t.Carries P) {n : Native.Node} {tree : Node}
    (ok : (t.convert n).1 = .ok tree) : P (.node tree) := by
  have carried := convertNode_gives carries n .empty
  unfold convert at ok
  generalize (t.convertNode n).run .empty = done at ok carried
  obtain ⟨found, log⟩ := done
  dsimp only at ok carried
  split at ok
  · cases ok
  · cases ok
    exact carried tree rfl
  · cases ok

theorem trusted_carries (trusted : t.Trusted) : t.Carries (Value.WellTyped t.registry) where
  constant v _ := by cases v <;> trivial
  list items := Value.allTyped_mem.mpr
  made schema named n member values ok := Node.ofFields_typed member values ok
  custom := trusted

theorem convert_typed (trusted : t.Trusted) {n : Native.Node} {tree : Node}
    (ok : (t.convert n).1 = .ok tree) : tree.WellTyped t.registry := convert_carried (trusted_carries trusted) ok

theorem standard_trusted (r : Registry) : (standard r).Trusted := by
  intro kind convert handled
  have member : (kind, Handler.custom convert) ∈ (standard r).handlers := by
    obtain ⟨pair, found, same⟩ := Option.map_eq_some_iff.mp handled
    have key : pair.1 = kind := by simpa using List.find?_some found
    rw [← key, ← same]
    exact List.mem_of_find?_eq_some found
  simp [standard] at member

theorem standard_typed (r : Registry) {n : Native.Node} {tree : Node}
    (ok : ((standard r).convert n).1 = .ok tree) : tree.WellTyped r := convert_typed (standard_trusted r) ok

end TreeLowering.Translator

namespace TreeLowering

theorem translate_typed {text : String} {tree : Node} (ok : translate text = .ok tree) :
    tree.WellTyped coreRegistry := by
  unfold translate at ok
  split at ok
  · exact Translator.standard_typed coreRegistry ok
  · cases ok

end TreeLowering
