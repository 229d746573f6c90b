import TreeLowering.Proofs.Complaints
import TreeLowering.Native.Decode
import TreeLowering.Tree.Render

namespace TreeLowering

open Decimal (digits digit? isDigit ofDigits)

namespace Decimal

theorem digit_value {c : Char} (digit : c.isDigit = true) : digit? c = some (c.toNat - '0'.toNat) := by
  unfold digit?
  rw [Char.isDigit, Bool.and_eq_true, decide_eq_true_eq, decide_eq_true_eq] at digit
  exact if_pos digit

theorem digits_isDigit {n : Nat} {c : Char} (member : c ∈ digits n) : c.isDigit = true :=
  Nat.isDigit_of_mem_toDigits (by omega) (by omega) member

theorem ofDigits_digits (n : Nat) : ofDigits (digits n) = n := by
  have same : ∀ cs : List Char, (∀ c ∈ cs, c.isDigit = true) → ∀ start,
      cs.foldl (fun n c => 10 * n + (digit? c).getD 0) start = Nat.ofDigitChars 10 cs start := by
    intro cs
    induction cs with
    | nil => exact fun _ _ => rfl
    | cons c rest ih =>
      intro all start
      rw [List.forall_mem_cons] at all
      rw [List.foldl_cons, digit_value all.1, ih all.2]
      rfl
  unfold ofDigits
  rw [same _ fun c member => digits_isDigit member]
  exact Nat.ofDigitChars_ten_toDigits

end Decimal

namespace Json.Numeral

theorem digits_places (n : Nat) : isPlaces (digits n) = true := by
  unfold isPlaces
  rw [Bool.and_eq_true, decide_eq_true_eq, List.all_eq_true]
  refine ⟨Nat.toDigits_ne_nil, fun c member => ?_⟩
  rw [isDigit, Decimal.digit_value (Decimal.digits_isDigit member)]
  rfl

theorem toNat_digits {n bound : Nat} (below : n < bound) :
    toNat? (String.ofList (digits n)) bound = some n := by
  unfold toNat?
  rw [String.toList_ofList]
  change (if isPlaces (digits n) ∧ ofDigits (digits n) < bound then some (ofDigits (digits n)) else none) = _
  rw [Decimal.ofDigits_digits]
  exact if_pos ⟨digits_places n, below⟩

theorem toInt_render (z : Int) : toInt? (String.ofList (renderInt z)) = some z := by
  unfold toInt? renderInt
  rw [String.toList_ofList]
  by_cases negative : z < 0
  · rw [if_pos negative]
    change (if isPlaces (digits z.natAbs) then some (-(ofDigits (digits z.natAbs) : Int)) else none) = _
    rw [if_pos (digits_places _), Decimal.ofDigits_digits]
    congr 1
    omega
  · rw [if_neg negative, List.nil_append]
    split
    · next ds shape =>
      have minus := Decimal.digits_isDigit (n := z.natAbs) (c := '-') (by rw [shape]; exact List.mem_cons_self ..)
      cases minus
    · rw [if_pos (digits_places _), Decimal.ofDigits_digits]
      congr 1
      omega

theorem toInt64_render (n : Int64) : toInt64? (String.ofList (renderInt n.toInt)) = some n := by
  unfold toInt64?
  rw [toInt_render, Option.bind_some, if_pos ⟨n.le_toInt, n.toInt_lt⟩, Int64.ofInt_toInt]

-- A text with a point or an exponent in it is no integer, so it has none of the readings of one.
theorem toInt_isInteger {text : String} {z : Int} (whole : toInt? text = some z) : isInteger text = true := by
  have plain : ∀ ds, isPlaces ds = true → ∀ c ∈ ds, ¬ (c = '.' ∨ c = 'e' ∨ c = 'E') := by
    intro ds places c member mark
    have digit := List.all_eq_true.mp (Bool.and_eq_true _ _ ▸ places).2 c member
    rcases mark with rfl | rfl | rfl <;> cases digit
  unfold toInt? at whole
  unfold isInteger
  rw [Bool.not_eq_true', List.any_eq_false]
  intro c member
  simp only [Bool.or_eq_true, decide_eq_true_eq]
  split at whole
  · next ds shape =>
    split at whole
    · next places =>
      rw [shape] at member
      rcases List.mem_cons.mp member with rfl | digit
      · decide
      · exact fun mark => plain ds places c digit (or_assoc.mp mark)
    · cases whole
  · split at whole
    · next places => exact fun mark => plain _ places c member (or_assoc.mp mark)
    · cases whole

theorem toInt64_isInteger {text : String} {n : Int64} (found : toInt64? text = some n) :
    isInteger text = true := by
  obtain ⟨z, whole, -⟩ := Option.bind_eq_some_iff.mp found
  exact toInt_isInteger whole

def isLarge (text : String) : Bool :=
  match toInt? text with
  | some z => !(-9223372036854775808 ≤ z ∧ z < 9223372036854775808)
  | none => false

end Json.Numeral

namespace Json

mutual
-- A value without the positions that a tree does not keep, in objects at any depth.
def stripped : Json → Json
  | .array items => .array (strippedItems items)
  | .object members => .object (strippedMembers members)
  | j => j
termination_by structural j => j

def strippedItems : List Json → List Json
  | [] => []
  | j :: rest => j.stripped :: strippedItems rest
termination_by structural js => js

def strippedMembers : List (String × Json) → List (String × Json)
  | [] => []
  | (key, j) :: rest =>
    if Native.positionKeys.contains key then strippedMembers rest
    else (key, j.stripped) :: strippedMembers rest
termination_by structural ms => ms
end

variable {j : Json}

theorem stripped_number {text : String} (same : j.stripped = .number text) : j = .number text := by
  cases j <;> first | exact same | cases same

theorem stripped_string {s : String} (same : j.stripped = .string s) : j = .string s := by
  cases j <;> first | exact same | cases same

theorem stripped_array {kept : List Json} (same : j.stripped = .array kept) :
    ∃ items, j = .array items ∧ strippedItems items = kept := by
  cases j with
  | array items => exact ⟨items, rfl, by injection same⟩
  | _ => cases same

theorem stripped_object {kept : List (String × Json)} (same : j.stripped = .object kept) :
    ∃ members, j = .object members ∧ strippedMembers members = kept := by
  cases j with
  | object members => exact ⟨members, rfl, by injection same⟩
  | _ => cases same

theorem stripped_numbers {items : List Json} {texts : List String}
    (same : strippedItems items = texts.map .number) : items = texts.map .number := by
  induction texts generalizing items with
  | nil =>
    cases items with
    | nil => rfl
    | cons j rest => cases same
  | cons text texts ih =>
    cases items with
    | nil => cases same
    | cons j rest =>
      injection same with first others
      rw [stripped_number first, ih others]
      rfl

theorem lookup_stripped {key : String} (kept : Native.positionKeys.contains key = false)
    (members : List (String × Json)) :
    Keyed.lookup? key (strippedMembers members) = (Keyed.lookup? key members).map stripped := by
  induction members with
  | nil => rfl
  | cons m rest ih =>
    obtain ⟨name, j⟩ := m
    rw [strippedMembers, Translator.lookup_cons]
    by_cases position : Native.positionKeys.contains name = true
    · have other : name ≠ key := by
        intro same
        rw [same, kept] at position
        cases position
      rw [if_pos position, if_neg other, ih]
    · rw [if_neg position, Translator.lookup_cons, ih]
      split <;> rfl

theorem stripped_absent {key : String} {members : List (String × Json)}
    (kept : Native.positionKeys.contains key = false)
    (absent : Keyed.lookup? key (strippedMembers members) = none) : Keyed.lookup? key members = none := by
  rwa [lookup_stripped kept, Option.map_eq_none_iff] at absent

theorem stripped_present {key : String} {members : List (String × Json)}
    (kept : Native.positionKeys.contains key = false)
    (found : Keyed.lookup? key (strippedMembers members) = some j) :
    ∃ whole, Keyed.lookup? key members = some whole ∧ whole.stripped = j := by
  rwa [lookup_stripped kept, Option.map_eq_some_iff] at found

end Json

namespace Native

def whole (n : Nat) : Json := .number (String.ofList (digits n))

def lineMember : Option UInt32 → List (String × Json)
  | some line => [("lineno", whole line.toNat)]
  | none => []

variable (write : Binary64 → String)

mutual
-- A value as JSON; only a foreign one has no form of its own.
def Value.encode : Value → Json
  | .node n => n.encode
  | .list items => .array (Value.encodeItems items)
  | .str s => .string s
  | .bytes bs => .object [("_bytes", .array (bs.map fun b => whole b.toNat))]
  | .int n => .number (String.ofList (renderInt n.toInt))
  | .bigInt text => .number text
  | .float x => .number (write x)
  | .complex z => .object [("_complex", .array [.number (write z.re), .number (write z.im)])]
  | .bool b => .bool b
  | .none | .foreign _ => .null
termination_by structural v => v

def Value.encodeItems : List Value → List Json
  | [] => []
  | v :: rest => v.encode :: Value.encodeItems rest
termination_by structural vs => vs

def Node.encode : Node → Json
  | .mk kind line fields => .object (("_type", .string kind) :: (lineMember line ++ Value.encodeFields fields))
termination_by structural n => n

def Value.encodeFields : List (String × Value) → List (String × Json)
  | [] => []
  | (name, v) :: rest => (name, v.encode) :: Value.encodeFields rest
termination_by structural fs => fs
end

-- What is written for a number has a point or an exponent, and reads as that number; so the number is finite.
def readsBack (x : Binary64) : Bool :=
  !Json.Numeral.isInteger (write x) && Json.Numeral.toBinary64? (write x) == some x

mutual
-- No value is foreign, a large integer is past 64 bits, a float is written so that it reads back, and no field
-- has the name of a tag or a position. Names may repeat.
def Value.encodable : Value → Bool
  | .node n => n.encodable
  | .list items => Value.allEncodable items
  | .bigInt text => Json.Numeral.isLarge text
  | .float x => readsBack write x
  | .complex z => readsBack write z.re && readsBack write z.im
  | .foreign _ => false
  | _ => true
termination_by structural v => v

def Value.allEncodable : List Value → Bool
  | [] => true
  | v :: rest => v.encodable && Value.allEncodable rest
termination_by structural vs => vs

def Node.encodable : Node → Bool
  | .mk _ _ fields => Value.fieldsEncodable fields
termination_by structural n => n

def Value.fieldsEncodable : List (String × Value) → Bool
  | [] => true
  | (name, v) :: rest => !isReserved name && v.encodable && Value.fieldsEncodable rest
termination_by structural fs => fs
end

theorem int_read (n : Int64) : ofNumeral (String.ofList (renderInt n.toInt)) = .int n := by
  unfold ofNumeral
  rw [Json.Numeral.toInt64_render]

theorem large_read {text : String} (large : Json.Numeral.isLarge text = true) : ofNumeral text = .bigInt text := by
  unfold Json.Numeral.isLarge at large
  cases found : Json.Numeral.toInt? text with
  | none =>
    rw [found] at large
    cases large
  | some z =>
    rw [found] at large
    have outside : Json.Numeral.toInt64? text = none := by
      unfold Json.Numeral.toInt64?
      rw [found]
      exact if_neg (of_decide_eq_false (Bool.not_eq_true' _ ▸ large))
    unfold ofNumeral
    rw [outside, Json.Numeral.toInt_isInteger found]
    rfl

variable {write} in
theorem float_read {x : Binary64} (reads : readsBack write x = true) : ofNumeral (write x) = .float x := by
  unfold readsBack at reads
  rw [Bool.and_eq_true, Bool.not_eq_true', beq_iff_eq] at reads
  obtain ⟨marked, value⟩ := reads
  unfold ofNumeral
  cases found : Json.Numeral.toInt64? (write x) with
  | some n =>
    rw [Json.Numeral.toInt64_isInteger found] at marked
    cases marked
  | none =>
    rw [marked, value]
    rfl

variable {write} in
theorem part_read {x : Binary64} (reads : readsBack write x = true) : float? (.number (write x)) = some x := by
  unfold readsBack at reads
  rw [Bool.and_eq_true, beq_iff_eq] at reads
  exact reads.2

theorem bytes_read (bs : List UInt8) :
    decodeBytes (.array (bs.map fun b => whole b.toNat)) = .ok (.bytes bs) := by
  have parts : (bs.map fun b => whole b.toNat).mapM byte? = some bs := by
    induction bs with
    | nil => rfl
    | cons b rest ih =>
      have first : byte? (whole b.toNat) = some b := by
        change (Json.Numeral.toNat? _ 256).map _ = _
        rw [Json.Numeral.toNat_digits b.toNat_lt, Option.map_some, UInt8.ofNat_toNat]
      rw [List.map_cons, List.mapM_cons, first, ih]
      rfl
  unfold decodeBytes
  simp only [parts]

theorem decodeFields_reserved (members : List (String × Json)) :
    decodeFields members = decodeFields (members.filter fun m => !isReserved m.1) := by
  induction members with
  | nil => rfl
  | cons m rest ih =>
    obtain ⟨key, j⟩ := m
    rw [List.filter_cons]
    cases reserved : isReserved key with
    | true =>
      rw [decodeFields, if_pos reserved, ih]
      rfl
    | false =>
      have kept : ¬ isReserved key = true := by rw [reserved]; exact Bool.false_ne_true
      change _ = decodeFields ((key, j) :: _)
      rw [decodeFields, decodeFields, if_neg kept, if_neg kept, ih]

theorem stripped_cons {key : String} (plain : isReserved key = false) (j : Json) (rest : List (String × Json)) :
    Json.strippedMembers ((key, j) :: rest) = (key, j.stripped) :: Json.strippedMembers rest := by
  rw [Json.strippedMembers, if_neg]
  intro position
  rw [isReserved, position, Bool.or_true] at plain
  cases plain

theorem stripped_unreserved (members : List (String × Json)) :
    Json.strippedMembers (members.filter fun m => !isReserved m.1) =
      (Json.strippedMembers members).filter fun m => !isReserved m.1 := by
  induction members with
  | nil => rfl
  | cons m rest ih =>
    obtain ⟨key, j⟩ := m
    rw [List.filter_cons, Json.strippedMembers]
    by_cases position : positionKeys.contains key = true
    · have reserved : isReserved key = true := by
        unfold isReserved
        rw [position, Bool.or_true]
      rw [if_pos position, reserved]
      exact ih
    · rw [if_neg position, List.filter_cons]
      cases reserved : isReserved key with
      | true => exact ih
      | false =>
        change Json.strippedMembers ((key, j) :: _) = _ :: _
        rw [stripped_cons reserved, ih]

variable {write} {line : Option UInt32} {fields : List (String × Value)}

theorem fields_absent {key : String} (reserved : isReserved key = true)
    (encodable : Value.fieldsEncodable write fields = true) :
    Keyed.lookup? key (Value.encodeFields write fields) = none := by
  induction fields with
  | nil => rfl
  | cons f rest ih =>
    obtain ⟨name, v⟩ := f
    simp only [Value.fieldsEncodable, Bool.and_eq_true, Bool.not_eq_true'] at encodable
    have other : name ≠ key := by
      intro same
      rw [same, reserved] at encodable
      cases encodable.1.1
    rw [Value.encodeFields, Translator.lookup_cons, if_neg other, ih encodable.2]

theorem fields_unreserved (encodable : Value.fieldsEncodable write fields = true) :
    (Value.encodeFields write fields).filter (fun m => !isReserved m.1) = Value.encodeFields write fields := by
  induction fields with
  | nil => rfl
  | cons f rest ih =>
    obtain ⟨name, v⟩ := f
    simp only [Value.fieldsEncodable, Bool.and_eq_true] at encodable
    rw [Value.encodeFields, List.filter_cons, if_pos encodable.1.1, ih encodable.2]

theorem keys_unreserved (kind : String) (line : Option UInt32)
    (encodable : Value.fieldsEncodable write fields = true) :
    (("_type", Json.string kind) :: (lineMember line ++ Value.encodeFields write fields)).filter
      (fun m => !isReserved m.1) = Value.encodeFields write fields := by
  have lineless : (lineMember line).filter (fun m => !isReserved m.1) = [] := by cases line <;> rfl
  change (lineMember line ++ Value.encodeFields write fields).filter (fun m => !isReserved m.1) = _
  rw [List.filter_append, lineless, fields_unreserved encodable, List.nil_append]

theorem line_read {kind : String} {members : List (String × Json)}
    (encodable : Value.fieldsEncodable write fields = true)
    (written : Json.strippedMembers members =
      ("_type", .string kind) :: (lineMember line ++ Value.encodeFields write fields)) :
    line? members = line := by
  unfold line?
  cases line with
  | none =>
    have absent : Keyed.lookup? "lineno" members = none := by
      refine Json.stripped_absent rfl ?_
      rw [written]
      exact fields_absent (by decide) encodable
    rw [absent]
  | some line =>
    have found : Keyed.lookup? "lineno" (Json.strippedMembers members) = some (whole line.toNat) := by
      rw [written]
      rfl
    obtain ⟨j, present, same⟩ := Json.stripped_present rfl found
    rw [present, Json.stripped_number same]
    change (Json.Numeral.toNat? _ (2 ^ 32)).map _ = _
    rw [Json.Numeral.toNat_digits line.toNat_lt, Option.map_some, UInt32.ofNat_toNat]

theorem bytes_decoded {bs : List UInt8} {members : List (String × Json)}
    (written : Json.strippedMembers members = [("_bytes", .array (bs.map fun b => whole b.toNat))]) :
    decodeValue (.object members) = .ok (.bytes bs) := by
  have found : ∀ key, Keyed.lookup? key (Json.strippedMembers members) = Keyed.lookup? key _ :=
    fun key => congrArg (Keyed.lookup? key) written
  obtain ⟨parts, present, same⟩ := Json.stripped_present rfl (found "_bytes")
  obtain ⟨items, rfl, numbers⟩ := Json.stripped_array same
  have texts : bs.map (fun b => whole b.toNat) =
      (bs.map fun b => String.ofList (digits b.toNat)).map .number := by
    rw [List.map_map]
    rfl
  rw [texts] at numbers
  rw [decodeValue, Json.stripped_absent rfl (found "_type"), Json.stripped_absent rfl (found "_complex"), present]
  change decodeBytes (.array items) = _
  rw [Json.stripped_numbers numbers, ← texts, bytes_read]

theorem complex_decoded {z : Complex} {members : List (String × Json)}
    (re : readsBack write z.re = true) (im : readsBack write z.im = true)
    (written : Json.strippedMembers members =
      [("_complex", .array [.number (write z.re), .number (write z.im)])]) :
    decodeValue (.object members) = .ok (.complex z) := by
  have found : ∀ key, Keyed.lookup? key (Json.strippedMembers members) = Keyed.lookup? key _ :=
    fun key => congrArg (Keyed.lookup? key) written
  obtain ⟨parts, present, same⟩ := Json.stripped_present rfl (found "_complex")
  obtain ⟨items, rfl, numbers⟩ := Json.stripped_array same
  have texts : items = [write z.re, write z.im].map .number := Json.stripped_numbers numbers
  rw [decodeValue, Json.stripped_absent rfl (found "_type"), present]
  change decodeComplex (.array items) = _
  rw [texts]
  unfold decodeComplex
  simp only [List.map_cons, List.map_nil, part_read re, part_read im]

mutual
-- The induction is on the tree; what is written tells each form of value from the others.
theorem value_read (v : Value) {j : Json} (encodable : v.encodable write = true)
    (same : j.stripped = v.encode write) : decodeValue j = .ok v := by
  cases v with
  | node n =>
    obtain ⟨members, rfl, -, decoded⟩ := node_read n encodable same
    exact decoded
  | list items =>
    obtain ⟨js, rfl, written⟩ := Json.stripped_array same
    rw [decodeValue, items_read items encodable written]
    rfl
  | str s =>
    rw [Json.stripped_string same]
    rfl
  | bytes bs =>
    obtain ⟨members, rfl, written⟩ := Json.stripped_object same
    exact bytes_decoded written
  | int n => rw [Json.stripped_number same, decodeValue, int_read]
  | bigInt text => rw [Json.stripped_number same, decodeValue, large_read encodable]
  | float x => rw [Json.stripped_number same, decodeValue, float_read encodable]
  | complex z =>
    obtain ⟨members, rfl, written⟩ := Json.stripped_object same
    rw [Value.encodable, Bool.and_eq_true] at encodable
    exact complex_decoded encodable.1 encodable.2 written
  | bool b =>
    cases j <;> cases same
    rfl
  | none =>
    cases j <;> cases same
    rfl
  | foreign text => cases encodable
termination_by structural v

theorem items_read (items : List Value) {js : List Json} (encodable : Value.allEncodable write items = true)
    (same : Json.strippedItems js = Value.encodeItems write items) : decodeItems js = .ok items := by
  cases items with
  | nil =>
    cases js with
    | nil => rfl
    | cons j rest => cases same
  | cons v rest =>
    cases js with
    | nil => cases same
    | cons j others =>
      rw [Value.allEncodable, Bool.and_eq_true] at encodable
      injection same with first later
      rw [decodeItems, value_read v encodable.1 first, items_read rest encodable.2 later]
      rfl
termination_by structural items

theorem node_read (n : Node) {j : Json} (encodable : n.encodable write = true)
    (same : j.stripped = n.encode write) : ∃ members, j = .object members ∧
      (Keyed.lookup? "_type" members).isSome ∧ decodeValue (.object members) = .ok (.node n) := by
  obtain ⟨kind, line, fields⟩ := n
  obtain ⟨members, rfl, written⟩ := Json.stripped_object same
  have found : Keyed.lookup? "_type" (Json.strippedMembers members) = some (.string kind) := by
    rw [written]
    rfl
  obtain ⟨tag, present, tagged⟩ := Json.stripped_present rfl found
  have decoded : decodeFields members = .ok fields := by
    rw [decodeFields_reserved]
    refine fields_read fields encodable (fun m kept => ?_) ?_
    · simpa using (List.mem_filter.mp kept).2
    · rw [stripped_unreserved, written, keys_unreserved kind line encodable]
  refine ⟨members, rfl, by rw [present]; rfl, ?_⟩
  rw [decodeValue, present, Json.stripped_string tagged]
  change (do
    let fields ← decodeFields members
    return Value.node (.mk kind (line? members) fields)) = _
  rw [decoded, line_read encodable written]
  rfl
termination_by structural n

theorem fields_read (fields : List (String × Value)) {members : List (String × Json)}
    (encodable : Value.fieldsEncodable write fields = true) (plain : ∀ m ∈ members, isReserved m.1 = false)
    (same : Json.strippedMembers members = Value.encodeFields write fields) :
    decodeFields members = .ok fields := by
  cases fields with
  | nil =>
    cases members with
    | nil => rfl
    | cons m rest =>
      rw [stripped_cons (plain m (List.mem_cons_self ..))] at same
      cases same
  | cons f rest =>
    obtain ⟨name, v⟩ := f
    cases members with
    | nil => cases same
    | cons m others =>
      obtain ⟨key, j⟩ := m
      rw [List.forall_mem_cons] at plain
      simp only [Value.fieldsEncodable, Bool.and_eq_true] at encodable
      rw [stripped_cons plain.1, Value.encodeFields] at same
      injection same with first later
      injection first with sameKey written
      change key = name at sameKey
      rw [decodeFields, if_neg (Bool.eq_false_iff.mp plain.1), value_read v encodable.1.2 written,
        fields_read rest encodable.2 plain.2 later, sameKey]
      rfl
termination_by structural fields
end

theorem bytes_bare (bs : List UInt8) :
    Json.strippedItems (bs.map fun b => whole b.toNat) = bs.map fun b => whole b.toNat := by
  induction bs with
  | nil => rfl
  | cons b rest ih =>
    change whole b.toNat :: Json.strippedItems (rest.map fun b => whole b.toNat) = _
    rw [ih]
    rfl

mutual
theorem value_bare (v : Value) (encodable : v.encodable write = true) :
    (v.encode write).stripped = v.encode write := by
  cases v with
  | node n => exact node_bare n encodable
  | list items =>
    rw [Value.encode, Json.stripped, items_bare items encodable]
  | bytes bs =>
    change Json.object [("_bytes", .array (Json.strippedItems (bs.map fun b => whole b.toNat)))] = _
    rw [bytes_bare]
    rfl
  | _ => rfl
termination_by structural v

theorem items_bare (items : List Value) (encodable : Value.allEncodable write items = true) :
    Json.strippedItems (Value.encodeItems write items) = Value.encodeItems write items := by
  cases items with
  | nil => rfl
  | cons v rest =>
    rw [Value.allEncodable, Bool.and_eq_true] at encodable
    rw [Value.encodeItems, Json.strippedItems, value_bare v encodable.1, items_bare rest encodable.2]
termination_by structural items

theorem node_bare (n : Node) (encodable : n.encodable write = true) :
    (n.encode write).stripped = n.encode write := by
  obtain ⟨kind, line, fields⟩ := n
  have below := fields_bare fields encodable
  cases line with
  | none =>
    change Json.object (("_type", .string kind) :: Json.strippedMembers (Value.encodeFields write fields)) = _
    rw [below]
    rfl
  | some line =>
    change Json.object (("_type", .string kind) :: ("lineno", whole line.toNat) ::
      Json.strippedMembers (Value.encodeFields write fields)) = _
    rw [below]
    rfl
termination_by structural n

theorem fields_bare (fields : List (String × Value)) (encodable : Value.fieldsEncodable write fields = true) :
    Json.strippedMembers (Value.encodeFields write fields) = Value.encodeFields write fields := by
  cases fields with
  | nil => rfl
  | cons f rest =>
    obtain ⟨name, v⟩ := f
    simp only [Value.fieldsEncodable, Bool.and_eq_true, Bool.not_eq_true'] at encodable
    rw [Value.encodeFields, stripped_cons encodable.1.1, value_bare v encodable.1.2, fields_bare rest encodable.2]
termination_by structural fields
end

-- Reading undoes writing, also with positions put in that the tree does not keep.
theorem ofJson_encode (write : Binary64 → String) (n : Node) (encodable : n.encodable write = true) :
    (n.encode write).stripped = n.encode write ∧ ∀ j, j.stripped = n.encode write →
      ofJson j = .ok n ∧ ∀ text, Json.read? text = some j → read text = .ok n := by
  refine ⟨node_bare n encodable, fun j same => ?_⟩
  obtain ⟨members, rfl, tagged, decoded⟩ := node_read n encodable same
  have root : ofJson.decodeRoot (.object members) = .ok (.node n) := by
    rw [← decoded]
    exact if_pos tagged
  have found : ofJson (.object members) = .ok n := by
    unfold ofJson
    rw [root]
    rfl
  refine ⟨found, fun text document => ?_⟩
  unfold read
  rw [document]
  exact found

def literalText (x : Binary64) : String := String.ofList (Binary64.Layout.literal.render x)

-- Every form of value, with the least integer of 64 bits and the one below it.
def everyForm : Node :=
  .mk "Expr" (some 3) [
    ("_complex", .complex ⟨⟨0⟩, ⟨0x4004000000000000⟩⟩),
    ("_bytes", .bytes [0, 255]),
    ("least", .int (-9223372036854775808)),
    ("below", .bigInt "-9223372036854775809"),
    ("parts", .list [.float ⟨0xc008000000000000⟩, .list [], .str "_type", .bool true, .none]),
    ("inner", .node (.mk "Name" none [("id", .str "x")]))]

def everyFormPlaced : Json :=
  .object [
    ("end_lineno", .number "9"),
    ("_type", .string "Expr"),
    ("lineno", .number "3"),
    ("_complex", .object [("_complex", .array [.number "0.0", .number "2.5"])]),
    ("_bytes", .object [("_bytes", .array [.number "0", .number "255"])]),
    ("col_offset", .null),
    ("least", .number "-9223372036854775808"),
    ("below", .number "-9223372036854775809"),
    ("parts", .array [.number "-3.0", .array [], .string "_type", .bool true, .null]),
    ("inner", .object [("_type", .string "Name"), ("id", .string "x"), ("end_col_offset", .array [])])]

theorem everyForm_read : ofJson everyFormPlaced = .ok everyForm := by
  have encodable : everyForm.encodable literalText = true := by decide +kernel
  have floats : literalText ⟨0⟩ = "0.0" ∧ literalText ⟨0x4004000000000000⟩ = "2.5" ∧
      literalText ⟨0xc008000000000000⟩ = "-3.0" := by decide +kernel
  have integers : String.ofList (renderInt (-9223372036854775808)) = "-9223372036854775808" ∧
      String.ofList (digits 0) = "0" ∧ String.ofList (digits 3) = "3" ∧ String.ofList (digits 255) = "255" := by
    decide +kernel
  have written : everyFormPlaced.stripped = everyForm.encode literalText := by
    simp [everyFormPlaced, everyForm, Json.stripped, Json.strippedItems, Json.strippedMembers, positionKeys,
      Node.encode, Value.encode, Value.encodeItems, Value.encodeFields, lineMember, whole, floats, integers]
  exact ((ofJson_encode literalText everyForm encodable).2 everyFormPlaced written).1

end Native

end TreeLowering
