import Mathlib.Algebra.Group.Int.Defs
import Mathlib.Data.List.TakeWhile
import TreeLowering.Proofs.DeclaredFields
import TreeLowering.Proofs.Encoding
import TreeLowering.Proofs.TypeCheck

namespace TreeLowering

open Decimal (isDigit ofDigits)

namespace Json.Numeral

-- Digits without a superfluous zero in front, and perhaps a minus sign before them.
inductive Denotes : String → Int → Prop where
  | natural {ds : List Char} (whole : isWhole ds = true) : Denotes (String.ofList ds) (ofDigits ds)
  | negative {ds : List Char} (whole : isWhole ds = true) :
      Denotes (String.ofList ('-' :: ds)) (-(ofDigits ds : Int))

theorem whole_places {ds : List Char} (whole : isWhole ds = true) : isPlaces ds = true := by
  unfold isWhole at whole
  split at whole
  · cases whole
  · rfl
  · cases whole
  · next nonempty _ _ =>
    rw [isPlaces, whole, Bool.and_true, decide_eq_true_eq]
    exact nonempty

theorem whole_digits {ds : List Char} (whole : isWhole ds = true) : ∀ c ∈ ds, isDigit c = true :=
  List.all_eq_true.mp (Bool.and_eq_true _ _ ▸ whole_places whole).2

theorem whole_unsigned {ds rest : List Char} (whole : isWhole ds = true) : ds ≠ '-' :: rest := by
  rintro rfl
  cases whole_digits whole '-' (List.mem_cons_self ..)

variable {text : String} {z : Int}

theorem Denotes.toInt (denotes : Denotes text z) : toInt? text = some z := by
  cases denotes with
  | natural whole =>
    unfold toInt?
    rw [String.toList_ofList]
    split
    · exact absurd rfl (whole_unsigned whole)
    · exact if_pos (whole_places whole)
  | negative whole =>
    unfold toInt?
    rw [String.toList_ofList]
    exact if_pos (whole_places whole)

def Marked (cs : List Char) : Prop := ∃ c ∈ cs, c = '.' ∨ c = 'e' ∨ c = 'E'

theorem isInteger_marked (cs : List Char) : isInteger (String.ofList cs) = false ↔ Marked cs := by
  simp [isInteger, Marked, or_assoc]

theorem exponent_cases {cs kept : List Char} (spelled : exponent? cs = some kept) :
    cs = [] ∧ kept = [] ∨ Marked kept ∧ Marked cs := by
  cases cs with
  | nil => exact .inl ⟨rfl, (Option.some.inj spelled).symm⟩
  | cons c r =>
    simp only [exponent?] at spelled
    split at spelled
    · cases spelled
    next mark =>
    have marked : Marked (c :: r) := ⟨c, List.mem_cons_self .., .inr (by tauto)⟩
    have begins : ∃ rest, kept = 'e' :: rest := by
      split at spelled <;> split at spelled <;> cases spelled <;> exact ⟨_, rfl⟩
    obtain ⟨rest, rfl⟩ := begins
    exact .inr ⟨⟨'e', List.mem_cons_self .., .inr (.inl rfl)⟩, marked⟩

theorem magnitude_cases {cs kept : List Char} (spelled : magnitude? cs = some kept) :
    kept = cs ∧ isWhole cs = true ∨ Marked kept ∧ Marked cs := by
  have parts : cs.takeWhile isDigit ++ cs.dropWhile isDigit = cs := List.takeWhile_append_dropWhile
  simp only [magnitude?] at spelled
  generalize cs.takeWhile isDigit = whole at parts spelled
  generalize cs.dropWhile isDigit = rest at parts spelled
  subst parts
  split at spelled
  · cases spelled
  next isWhole =>
  rw [Bool.not_eq_true', Bool.not_eq_false] at isWhole
  split at spelled
  · split at spelled
    · obtain ⟨e, -, rfl⟩ := Option.map_eq_some_iff.mp spelled
      exact .inr ⟨⟨'.', by simp, .inl rfl⟩, '.', by simp, .inl rfl⟩
    · cases spelled
  · obtain ⟨e, exponent, rfl⟩ := Option.map_eq_some_iff.mp spelled
    rcases exponent_cases exponent with ⟨rfl, rfl⟩ | ⟨⟨c, inKept, mark⟩, d, inside, same⟩
    · exact .inl (by simpa using isWhole)
    · exact .inr ⟨⟨c, List.mem_append_right _ inKept, mark⟩, d, List.mem_append_right _ inside, same⟩

theorem spelling_cases {cs kept : List Char} (spelled : spelling? cs = some kept) :
    kept = cs ∧ (∃ z, Denotes (String.ofList cs) z) ∨ Marked kept ∧ Marked cs := by
  unfold spelling? at spelled
  split at spelled
  · obtain ⟨text, magnitude, rfl⟩ := Option.map_eq_some_iff.mp spelled
    rcases magnitude_cases magnitude with ⟨rfl, whole⟩ | ⟨⟨c, inKept, mark⟩, d, inside, same⟩
    · exact .inl ⟨rfl, _, .negative whole⟩
    · exact .inr ⟨⟨c, List.mem_cons_of_mem _ inKept, mark⟩, d, List.mem_cons_of_mem _ inside, same⟩
  · exact (magnitude_cases spelled).imp_left fun both => ⟨both.1, _, .natural both.2⟩

def Fits (z : Int) : Prop := -2 ^ 63 ≤ z ∧ z ≤ 2 ^ 63 - 1

instance (z : Int) : Decidable (Fits z) := inferInstanceAs (Decidable (_ ∧ _))

theorem Denotes.toInt64 (denotes : Denotes text z) (fits : Fits z) :
    ∃ k : Int64, k.toInt = z ∧ toInt64? text = some k := by
  unfold Fits at fits
  refine ⟨Int64.ofInt z, Int64.toInt_ofInt_of_le fits.1 (by omega), ?_⟩
  unfold toInt64?
  rw [denotes.toInt, Option.bind_some, if_pos (by omega)]

theorem Denotes.large (denotes : Denotes text z) (large : ¬ Fits z) : isLarge text = true := by
  unfold Fits at large
  unfold isLarge
  rw [denotes.toInt]
  simp only [Bool.not_eq_true', decide_eq_false_iff_not]
  omega

end Json.Numeral

namespace Native

open Json.Numeral (Denotes Fits Marked)

variable {text : String} {z : Int}

theorem numeral_small (denotes : Denotes text z) (fits : Fits z) :
    ∃ k : Int64, k.toInt = z ∧ ofNumeral text = .int k := by
  obtain ⟨k, same, read⟩ := denotes.toInt64 fits
  exact ⟨k, same, by rw [ofNumeral, read]⟩

theorem numeral_large (denotes : Denotes text z) (large : ¬ Fits z) : ofNumeral text = .bigInt text :=
  large_read (denotes.large large)

-- A number with a point or an exponent is floating-point, or too large for that and foreign.
theorem numeral_marked {cs : List Char} (marked : Marked cs) :
    (∃ x, ofNumeral (String.ofList cs) = .float x) ∨
      ofNumeral (String.ofList cs) = .foreign (String.ofList cs) := by
  have noInteger := (Json.Numeral.isInteger_marked cs).mpr marked
  unfold ofNumeral
  cases found : Json.Numeral.toInt64? (String.ofList cs) with
  | some k => cases noInteger.symm.trans (Json.Numeral.toInt64_isInteger found)
  | none =>
    rw [noInteger]
    cases Json.Numeral.toBinary64? (String.ofList cs) with
    | some x => exact .inl ⟨x, rfl⟩
    | none => exact .inr rfl

end Native

-- What stands in a value, by the positions in sequences of sequences that lead to it.
def within {α : Type} (items? : α → Option (List α)) : List Nat → α → Option α
  | [], a => some a
  | i :: path, a => (items? a).bind fun items => (items[i]?).bind (within items? path)

theorem within_related {α β : Type} {ofLeft : α → Option (List α)} {ofRight : β → Option (List β)}
    {R : α → β → Prop}
    (items : ∀ a b as, R a b → ofLeft a = some as → ∃ bs, ofRight b = some bs ∧ List.Forall₂ R as bs)
    {path : List Nat} {a found : α} {b : β} (related : R a b) (place : within ofLeft path a = some found) :
    ∃ there, within ofRight path b = some there ∧ R found there := by
  induction path generalizing a b with
  | nil =>
    cases place
    exact ⟨b, rfl, related⟩
  | cons i path ih =>
    obtain ⟨as, held, inner⟩ := Option.bind_eq_some_iff.mp place
    obtain ⟨next, here, rest⟩ := Option.bind_eq_some_iff.mp inner
    obtain ⟨bs, heldRight, all⟩ := items a b as related held
    rcases forall₂_index all i with ⟨missing, -⟩ | ⟨x, y, left, right, pair⟩
    · cases missing.symm.trans here
    · cases left.symm.trans here
      obtain ⟨there, below, same⟩ := ih pair rest
      exact ⟨there, by simp [within, heldRight, right, below], same⟩

def Json.items? : Json → Option (List Json)
  | .array items => some items
  | _ => none

def Native.Value.items? : Native.Value → Option (List Native.Value)
  | .list items => some items
  | _ => Option.none

theorem Native.decoded_within {j found : Json} {v : Native.Value} {path : List Nat}
    (decoded : decodeValue j = .ok v) (place : within Json.items? path j = some found) :
    ∃ w, within Value.items? path v = some w ∧ decodeValue found = .ok w := by
  refine within_related (R := fun j v => decodeValue j = .ok v) (fun j v js read held => ?_) decoded place
  cases j with
  | array items =>
    cases held
    obtain ⟨vs, all, same⟩ := bind_ok.mp read
    cases same
    exact ⟨vs, rfl, decodeItems_items all⟩
  | _ => cases held

namespace Translator

variable (r : Registry) (line : Option UInt32)

theorem converted_within {v found : Native.Value} {w : Value} {path : List Nat}
    (converts : answer ((standard r).convertValue line v) = some w)
    (place : within Native.Value.items? path v = some found) :
    ∃ there, within Value.items? path w = some there ∧
      answer ((standard r).convertValue line found) = some there := by
  refine within_related (R := fun v w => answer ((standard r).convertValue line v) = some w)
    (fun v w vs given held => ?_) converts place
  cases v with
  | list items =>
    cases held
    rw [(convertValue_list _ line _).1] at given
    obtain ⟨ws, all, rfl⟩ := Option.map_eq_some_iff.mp given
    exact ⟨ws, rfl, items_converted r all⟩
  | _ => cases held

theorem within_messages {v found : Native.Value} {path : List Nat} {m : Message}
    (place : within Native.Value.items? path v = some found)
    (said : m ∈ messages ((standard r).convertValue line found)) :
    m ∈ messages ((standard r).convertValue line v) := by
  induction path generalizing v with
  | nil =>
    cases place
    exact said
  | cons i path ih =>
    obtain ⟨items, held, inner⟩ := Option.bind_eq_some_iff.mp place
    obtain ⟨next, here, rest⟩ := Option.bind_eq_some_iff.mp inner
    cases v with
    | list items =>
      cases held
      rw [(convertValue_list _ line items).2, convertItems_messages]
      exact List.mem_flatMap.mpr ⟨next, List.mem_of_getElem? here, ih rest⟩
    | _ => cases held

theorem held_messages {v : Native.Value} {n : Native.Node} {m : Message} (held : v.Holds n)
    (said : m ∈ messages ((standard r).convertNode n)) : m ∈ messages ((standard r).convertValue line v) := by
  induction held with
  | node n =>
    rw [(convertValue_node _ _ n).2]
    exact said
  | item member _ ih =>
    rw [(convertValue_list _ _ _).2, convertItems_messages]
    exact List.mem_flatMap.mpr ⟨_, member, ih said⟩

theorem visits_messages {root n : Native.Node} (visited : Visits root n) {m : Message} :
    m ∈ messages ((standard r).convertNode n) → m ∈ messages ((standard r).convertNode root) := by
  induction visited with
  | self => exact id
  | part usual field held _ ih =>
    intro said
    rw [convertNode_route, usual, (usual_built _ _).2, convertFields_messages]
    exact List.mem_append_left _ (List.mem_flatMap.mpr ⟨_, field, held_messages r _ held (ih said)⟩)
  | inside wraps _ ih =>
    intro said
    rw [convertNode_route, wraps]
    exact ih said

open Json.Numeral (Denotes Fits Marked)

theorem single_made {schema : Schema} {f : Field} {v : Value} (fields : schema.fields = [f]) (fits : f.Fits v) :
    ∃ made, Node.ofFields schema [(f.name, v)] = .ok made ∧ made.schema = schema ∧
      made.get? f.name = some v := by
  have index : (Node.empty schema).schema.fieldIndex? f.name = some 0 := by
    simp [Node.empty, Node.schema, Schema.fieldIndex?, fields]
  have stored : (Node.empty schema).set f.name v = .ok ((Node.empty schema).put 0 (.value v)) :=
    Node.set_exact.mpr ⟨0, f, .value v, index, by simp [Node.empty, Node.schema, fields],
      Field.assign_value.mpr fits, rfl⟩
  refine ⟨_, Node.setNamed_cons.mpr ⟨_, stored, rfl⟩, rfl, ?_⟩
  rw [Node.get?, Node.slot?_put (Node.empty_sized schema) index, if_pos index]
  rfl

def DeclaresLiteral (kind : String) (type : ElementType) : Prop :=
  (r.get? kind).map Schema.fields = some [⟨"n", type, .required⟩]

theorem core_declares : DeclaresLiteral coreRegistry "IntLiteral" .int ∧
    DeclaresLiteral coreRegistry "FloatLiteral" .float := by
  have int := core_other (s := Core.expression "IntLiteral" [⟨"n", .int, .required⟩]) (by simp [Core.others])
  have float := core_other (s := Core.expression "FloatLiteral" [⟨"n", .float, .required⟩]) (by simp [Core.others])
  exact ⟨congrArg (Option.map Schema.fields) int, congrArg (Option.map Schema.fields) float⟩

theorem literal_built {kind : String} {type : ElementType} {v : Value} (declared : DeclaresLiteral r kind type)
    (accepted : type.accepts v = true) (solid : isBlank v = false) (line : Option UInt32) :
    ∃ made : Node, made.kind = kind ∧ made.get? "n" = some v ∧
      ∀ log, ((standard r).build kind [("n", v)] line).run log = (some made, log) := by
  obtain ⟨schema, found, fields⟩ := Option.map_eq_some_iff.mp declared
  have named : schema.kind = kind := by simpa using List.find?_some found
  obtain ⟨made, built, same, held⟩ := single_made (v := v) fields accepted
  refine ⟨made, by rw [Node.kind, same, named], held, fun log => ?_⟩
  have given : [("n", v)].filter (fun f => (schema.resolve? f.1).isSome || !isBlank f.2) = [("n", v)] := by
    simp [solid]
  simp only [build, standard, found, given, built]
  rfl

def literalKeys : List (String × String) := [("Num", "n"), ("Constant", "value")]

theorem literal_route {n : Native.Node} {key : String} {v : Native.Value} (literal : (n.kind, key) ∈ literalKeys)
    (held : n.get? key = some v) : ∃ read, (read = number ∨ read = constant) ∧
      (standard r).convertNode n = (standard r).buildLiteral (read (some v)) n.line := by
  simp only [literalKeys, List.mem_cons, Prod.mk.injEq, List.not_mem_nil, or_false] at literal
  rw [convertNode_route]
  rcases literal with ⟨kind, rfl⟩ | ⟨kind, rfl⟩
  · exact ⟨number, .inl rfl, by simp [route, kind, held, follow]⟩
  · exact ⟨constant, .inr rfl, by simp [route, kind, held, follow]⟩

-- What a conversion makes of an integer literal. Where 64 bits suffice it gives what shows the integer and has
-- nothing to say; otherwise it gives nothing and says that, once.
structure Ingests {α : Type} (text : String) (z : Int) (line : Option UInt32) (shows : Int64 → α → Prop)
    (c : Converting (Option α)) : Prop where
  exact : Fits z → ∃ (k : Int64) (a : α), k.toInt = z ∧ shows k a ∧ ∀ log, c.run log = (some a, log)
  refused : ¬ Fits z → ∀ log, c.run log = (none, log.add ⟨outOfRange text, line⟩)

def IsLiteral (k : Int64) (made : Node) : Prop := made.kind = "IntLiteral" ∧ made.get? "n" = some (.int k)

variable {text : String} {z : Int}

theorem value_ingests (denotes : Denotes text z) :
    Ingests text z line (fun k w => w = .int k) ((standard r).convertValue line (Native.ofNumeral text)) where
  exact fits := by
    obtain ⟨k, same, read⟩ := Native.numeral_small denotes fits
    exact ⟨k, .int k, same, rfl, fun log => by rw [read]; rfl⟩
  refused large log := by
    rw [Native.numeral_large denotes large]
    rfl

theorem literal_ingests (declared : DeclaresLiteral r "IntLiteral" .int) (denotes : Denotes text z)
    {n : Native.Node} {key : String} (literal : (n.kind, key) ∈ literalKeys)
    (held : n.get? key = some (Native.ofNumeral text)) :
    Ingests text z n.line IsLiteral ((standard r).convertNode n) := by
  obtain ⟨read, either, same⟩ := literal_route r literal held
  rw [same]
  refine ⟨fun fits => ?_, fun large log => ?_⟩
  · obtain ⟨k, whole, small⟩ := Native.numeral_small denotes fits
    obtain ⟨made, kind, value, built⟩ := literal_built r (v := .int k) declared rfl rfl n.line
    refine ⟨k, made, whole, ⟨kind, value⟩, fun log => ?_⟩
    rw [small]
    rcases either with rfl | rfl <;> exact built log
  · rw [Native.numeral_large denotes large]
    rcases either with rfl | rfl <;> rfl

-- A number that denotes no integer is a floating-point literal, if it is one at all.
theorem marked_literal (declared : DeclaresLiteral r "FloatLiteral" .float) {cs : List Char} (marked : Marked cs)
    {n : Native.Node} {key : String} {made : Node} (literal : (n.kind, key) ∈ literalKeys)
    (held : n.get? key = some (Native.ofNumeral (String.ofList cs)))
    (converts : answer ((standard r).convertNode n) = some made) :
    made.kind = "FloatLiteral" ∧ ∃ x, made.get? "n" = some (.float x) := by
  obtain ⟨read, either, same⟩ := literal_route r literal held
  rw [same] at converts
  rcases Native.numeral_marked marked with ⟨x, float⟩ | foreign
  · obtain ⟨found, kind, value, built⟩ := literal_built r (v := .float x) declared rfl rfl n.line
    have given : answer ((standard r).buildLiteral (read (some (.float x))) n.line) = some found := by
      rcases either with rfl | rfl <;> exact congrArg Prod.fst (built .empty)
    rw [float, given] at converts
    cases converts
    exact ⟨kind, x, value⟩
  · rw [foreign] at converts
    rcases either with rfl | rfl <;> cases converts

open Native (decodeValue decodeFields isReserved)

theorem member_given {members : List (String × Json)} {n : Native.Node} {key : String} {j : Json}
    {v : Native.Value} (decoded : decodeValue (.object members) = .ok (.node n)) (plain : isReserved key = false)
    (given : Keyed.lookup? key members = some j) (value : decodeValue j = .ok v) : n.get? key = some v := by
  obtain ⟨same, shape, fields⟩ := (Native.decode_shape decoded).1 n rfl
  cases shape
  unfold Native.Node.get?
  generalize n.fields = named at fields
  clear decoded
  induction members generalizing named with
  | nil => cases given
  | cons m rest ih =>
    obtain ⟨name, held⟩ := m
    rw [lookup_cons] at given
    rw [decodeFields] at fields
    by_cases reserved : isReserved name = true
    · rw [if_pos reserved] at fields
      have other : name ≠ key := fun same => by
        rw [same, plain] at reserved
        cases reserved
      rw [if_neg other] at given
      exact ih given named fields
    · rw [if_neg reserved] at fields
      obtain ⟨w, first, ran⟩ := bind_ok.mp fields
      obtain ⟨others, later, same⟩ := bind_ok.mp ran
      cases same
      rw [lookup_cons]
      by_cases here : name = key
      · rw [if_pos here] at given ⊢
        cases given
        cases first.symm.trans value
        rfl
      · rw [if_neg here] at given ⊢
        exact ih given others later

theorem member_within {members : List (String × Json)} {n : Native.Node} {key : String} {j : Json}
    {source : String} {path : List Nat} (decoded : decodeValue (.object members) = .ok (.node n))
    (member : (key, j) ∈ members) (plain : isReserved key = false)
    (place : within Json.items? path j = some (.number source)) : ∃ v, (key, v) ∈ n.fields ∧
      decodeValue j = .ok v ∧ within Native.Value.items? path v = some (Native.ofNumeral source) := by
  obtain ⟨same, shape, fields⟩ := (Native.decode_shape decoded).1 n rfl
  cases shape
  obtain ⟨v, value, field⟩ := Native.member_field fields member plain
  obtain ⟨found, there, read⟩ := Native.decoded_within value place
  cases read
  exact ⟨v, field, value, there⟩

-- An integer literal in a document. As the value of a literal it becomes that literal or the one message with
-- which a translation fails; elsewhere it becomes the integer where it stands, or the field is not converted and
-- the message is among those of every tree on whose way the node is.
structure Ingested (text : String) (z : Int) : Prop where
  literal {members : List (String × Json)} {n : Native.Node} {key : String} :
    decodeValue (.object members) = .ok (.node n) → (n.kind, key) ∈ literalKeys →
    Keyed.lookup? key members = some (.number text) →
      Ingests text z n.line IsLiteral ((standard coreRegistry).convertNode n) ∧
      (Fits z → ∃ k made, Int64.toInt k = z ∧ IsLiteral k made ∧
        ((standard coreRegistry).convert n).1 = .ok made) ∧
      (¬ Fits z → ∃ e, ((standard coreRegistry).convert n).1 = .error e ∧
        e.messages = [⟨outOfRange text, n.line⟩])
  field {members : List (String × Json)} {n : Native.Node} {key : String} {j : Json} {path : List Nat} :
    decodeValue (.object members) = .ok (.node n) → route n = .usual → (key, j) ∈ members →
    isReserved key = false → within Json.items? path j = some (.number text) →
      ∃ v, (key, v) ∈ n.fields ∧ decodeValue j = .ok v ∧
        within Native.Value.items? path v = some (Native.ofNumeral text) ∧
        Ingests text z n.line (fun k w => w = .int k)
          ((standard coreRegistry).convertValue n.line (Native.ofNumeral text)) ∧
        (Fits z → ∀ w, answer ((standard coreRegistry).convertValue n.line v) = some w →
          (key, w) ∈ converted coreRegistry n ∧
            ∃ k, Int64.toInt k = z ∧ within Value.items? path w = some (.int k)) ∧
        (¬ Fits z → answer ((standard coreRegistry).convertValue n.line v) = none ∧
          ∀ root, Visits root n → ∃ e, ((standard coreRegistry).convert root).1 = .error e ∧
            ⟨outOfRange text, n.line⟩ ∈ e.messages)

-- A literal in a document that denotes no integer: there is none where it stands.
structure Fractional (text : String) : Prop where
  literal {members : List (String × Json)} {n : Native.Node} {key : String} :
    decodeValue (.object members) = .ok (.node n) → (n.kind, key) ∈ literalKeys →
    Keyed.lookup? key members = some (.number text) →
      ∀ made, answer ((standard coreRegistry).convertNode n) = some made →
        made.kind = "FloatLiteral" ∧ ∃ x, made.get? "n" = some (.float x)
  field {members : List (String × Json)} {n : Native.Node} {key : String} {j : Json} {path : List Nat} :
    decodeValue (.object members) = .ok (.node n) → route n = .usual → (key, j) ∈ members →
    isReserved key = false → within Json.items? path j = some (.number text) →
      ∃ v, (key, v) ∈ n.fields ∧ decodeValue j = .ok v ∧
        ∀ w, answer ((standard coreRegistry).convertValue n.line v) = some w →
          ∃ x, within Value.items? path w = some (.float x)

theorem literal_plain {n : Native.Node} {key : String} (literal : (n.kind, key) ∈ literalKeys) :
    isReserved key = false := by
  simp only [literalKeys, List.mem_cons, Prod.mk.injEq, List.not_mem_nil, or_false] at literal
  rcases literal with ⟨-, rfl⟩ | ⟨-, rfl⟩ <;> decide

theorem said_fails {t : Translator} {n : Native.Node} {m : Message} (said : m ∈ messages (t.convertNode n)) :
    ∃ e, (t.convert n).1 = .error e ∧ e.messages = messages (t.convertNode n) := by
  rw [← convert_reported] at said ⊢
  cases outcome : (t.convert n).1 with
  | ok tree =>
    rw [outcome] at said
    cases said
  | error e => exact ⟨e, rfl, rfl⟩

section Place

variable {v : Native.Value} {path : List Nat}

theorem place_exact (denotes : Denotes text z) (fits : Fits z)
    (there : within Native.Value.items? path v = some (Native.ofNumeral text)) {w : Value}
    (given : answer ((standard r).convertValue line v) = some w) :
    ∃ k, Int64.toInt k = z ∧ within Value.items? path w = some (.int k) := by
  obtain ⟨k, a, same, rfl, ran⟩ := (value_ingests r line denotes).exact fits
  obtain ⟨found, inside, read⟩ := converted_within r line given there
  cases read.symm.trans (congrArg (·.1) (ran .empty))
  exact ⟨k, same, inside⟩

theorem place_refused (denotes : Denotes text z) (large : ¬ Fits z)
    (there : within Native.Value.items? path v = some (Native.ofNumeral text)) :
    answer ((standard r).convertValue line v) = none ∧
      ⟨outOfRange text, line⟩ ∈ messages ((standard r).convertValue line v) := by
  have refused := (value_ingests r line denotes).refused large .empty
  constructor
  · cases given : answer ((standard r).convertValue line v) with
    | none => rfl
    | some w =>
      obtain ⟨found, -, read⟩ := converted_within r line given there
      cases read.symm.trans (congrArg (·.1) refused)
  · refine within_messages r line there ?_
    have said : messages ((standard r).convertValue line (Native.ofNumeral text)) = [⟨outOfRange text, line⟩] :=
      congrArg (·.2.messages) refused
    rw [said]
    exact List.mem_singleton_self _

theorem place_marked {cs : List Char} (marked : Marked cs)
    (there : within Native.Value.items? path v = some (Native.ofNumeral (String.ofList cs))) {w : Value}
    (given : answer ((standard r).convertValue line v) = some w) :
    ∃ x, within Value.items? path w = some (.float x) := by
  obtain ⟨found, inside, read⟩ := converted_within r line given there
  rcases Native.numeral_marked marked with ⟨x, float⟩ | foreign
  · rw [float] at read
    cases read
    exact ⟨x, inside⟩
  · rw [foreign] at read
    cases read

end Place

theorem denoted_ingested (denotes : Denotes text z) : Ingested text z where
  literal {members n key} decoded literal given := by
    have held := member_given decoded (literal_plain literal) given rfl
    have ingests := literal_ingests coreRegistry core_declares.1 denotes literal held
    refine ⟨ingests, fun fits => ?_, fun large => ?_⟩
    · obtain ⟨k, made, same, shows, ran⟩ := ingests.exact fits
      exact ⟨k, made, same, shows, convert_ok.mpr
        ⟨congrArg (·.2.messages) (ran .empty), congrArg (·.1) (ran .empty)⟩⟩
    · have said : messages ((standard coreRegistry).convertNode n) = [⟨outOfRange text, n.line⟩] :=
        congrArg (·.2.messages) (ingests.refused large .empty)
      rw [← said]
      exact said_fails (said ▸ List.mem_singleton_self _)
  field {members n key j path} decoded usual member plain place := by
    obtain ⟨v, field, value, there⟩ := member_within decoded member plain place
    refine ⟨v, field, value, there, value_ingests coreRegistry n.line denotes, fun fits w given => ?_,
      fun large => ?_⟩
    · have inside : (key, w) ∈ converted coreRegistry n := (mem_converted coreRegistry).mpr ⟨v, field, given⟩
      exact ⟨inside, place_exact coreRegistry n.line denotes fits there given⟩
    · obtain ⟨lost, said⟩ := place_refused coreRegistry n.line denotes large there
      refine ⟨lost, fun root visited => ?_⟩
      have ofNode : ⟨outOfRange text, n.line⟩ ∈ messages ((standard coreRegistry).convertNode n) := by
        rw [convertNode_route, usual, (usual_built _ n).2, convertFields_messages]
        exact List.mem_append_left _ (List.mem_flatMap.mpr ⟨_, field, said⟩)
      have ofRoot := visits_messages coreRegistry visited ofNode
      obtain ⟨e, failed, same⟩ := said_fails ofRoot
      exact ⟨e, failed, same ▸ ofRoot⟩

theorem marked_fractional {cs : List Char} (marked : Marked cs) : Fractional (String.ofList cs) where
  literal decoded literal given _ converts :=
    marked_literal coreRegistry core_declares.2 marked literal
      (member_given decoded (literal_plain literal) given rfl) converts
  field decoded _ member plain place := by
    obtain ⟨v, field, value, there⟩ := member_within decoded member plain place
    exact ⟨v, field, value, fun w given => place_marked coreRegistry _ marked there given⟩

-- Every literal that documents allow either denotes one integer, is kept as it was written and ingested as
-- that integer, or has a point or an exponent and never becomes one.
theorem literals_ingested {source : String} {kept : List Char}
    (spelled : Json.Numeral.spelling? source.toList = some kept) :
    (Json.Numeral.isInteger source = true → String.ofList kept = source ∧
      ∃ z, Denotes source z ∧ (∀ other, Denotes source other → other = z) ∧ Ingested source z) ∧
    (Json.Numeral.isInteger source = false → Fractional (String.ofList kept)) := by
  have whole : String.ofList source.toList = source := String.ofList_toList
  have mark := Json.Numeral.isInteger_marked source.toList
  rw [whole] at mark
  rcases Json.Numeral.spelling_cases spelled with ⟨rfl, z, denotes⟩ | ⟨markedKept, marked⟩
  · rw [whole] at denotes ⊢
    have integer := Json.Numeral.toInt_isInteger denotes.toInt
    refine ⟨fun _ => ⟨rfl, z, denotes, fun other denoted => ?_, denoted_ingested denotes⟩, fun fractional => ?_⟩
    · exact Option.some.inj (denoted.toInt.symm.trans denotes.toInt)
    · cases integer.symm.trans fractional
  · refine ⟨fun integer => ?_, fun _ => marked_fractional markedKept⟩
    cases integer.symm.trans (mark.mpr marked)

def numberText (literal : String) : String := "\x7b\"_type\": \"Num\", \"lineno\": 1, \"n\": " ++ literal ++ "\x7d"

def numberMembers (literal : String) : List (String × Json) :=
  [("_type", .string "Num"), ("lineno", .number "1"), ("n", .number literal)]

def numberNode (literal : String) : Native.Node := .mk "Num" (some 1) [("n", Native.ofNumeral literal)]

theorem number_decoded (literal : String) :
    decodeValue (.object (numberMembers literal)) = .ok (.node (numberNode literal)) := rfl

theorem number_translated {literal : String}
    (read : Json.read? (numberText literal) = some (.object (numberMembers literal))) :
    translate (numberText literal) = ((standard coreRegistry).convert (numberNode literal)).1 := by
  rw [translate, Native.read, read]
  rfl

-- The least integer of 64 bits is kept, the one after the greatest is refused, and with an exponent neither is read.
theorem edges_ingested :
    (∃ made, translate (numberText "-9223372036854775808") = .ok made ∧ IsLiteral Int64.minValue made) ∧
    (∃ e, translate (numberText "9223372036854775808") = .error e ∧
      e.messages = [⟨"integer literal 9223372036854775808 does not fit in 64 bits", some 1⟩]) ∧
    Fractional "-1e+0" := by
  have literal : ("Num", "n") ∈ literalKeys := List.mem_cons_self ..
  refine ⟨?_, ?_, ?_⟩
  · have spelled : Json.Numeral.spelling? "-9223372036854775808".toList = some "-9223372036854775808".toList := rfl
    obtain ⟨-, z, denotes, -, ingested⟩ := (literals_ingested spelled).1 (by decide)
    have least : z = -2 ^ 63 := Option.some.inj (denotes.toInt.symm.trans rfl)
    obtain ⟨-, exact, -⟩ := ingested.literal (number_decoded _) literal rfl
    obtain ⟨k, made, same, shows, ran⟩ := exact (by subst least; decide)
    refine ⟨made, (number_translated rfl).trans ran, ?_⟩
    have whole : k = Int64.minValue := Int64.toInt_inj.mp (same.trans least)
    exact whole ▸ shows
  · have spelled : Json.Numeral.spelling? "9223372036854775808".toList = some "9223372036854775808".toList := rfl
    obtain ⟨-, z, denotes, -, ingested⟩ := (literals_ingested spelled).1 (by decide)
    have above : z = 2 ^ 63 := Option.some.inj (denotes.toInt.symm.trans rfl)
    obtain ⟨-, -, refused⟩ := ingested.literal (number_decoded _) literal rfl
    obtain ⟨e, failed, said⟩ := refused (by subst above; decide)
    exact ⟨e, (number_translated rfl).trans failed, said⟩
  · have spelled : Json.Numeral.spelling? "-1E+0".toList = some "-1e+0".toList := rfl
    exact (literals_ingested spelled).2 (by decide)

end Translator

end TreeLowering
