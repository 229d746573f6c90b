import TreeLowering.Proofs.Literals
import TreeLowering.Proofs.Encoding
import TreeLowering.Schema.Registry
import TreeLowering.Text.Identifier
import TreeLowering.Tree.Render

namespace TreeLowering

namespace Reading

open Text (isQuote unquote? bytesOf startsIdentifier continuesIdentifier isIdentifier)

abbrev Reader (α : Type) := List Char → Option (α × List Char)

def pastComma : List Char → List Char
  | ',' :: ' ' :: rest => rest
  | ',' :: rest => rest
  | rest => rest

-- The elements up to a closing bracket. The fuel is used up by one for each of them and one for the bracket.
def elements? {α : Type} (close : Char) (read : Reader α) : Nat → Reader (List α)
  | 0, _ => none
  | _ + 1, [] => none
  | fuel + 1, c :: cs =>
    if c = close then some ([], cs)
    else do
      let (a, rest) ← read (c :: cs)
      let (as, behind) ← elements? close read fuel (pastComma rest)
      return (a :: as, behind)

def field? (read : Reader Value) : Reader (String × Value) := fun cs =>
  match cs.dropWhile continuesIdentifier with
  | '=' :: rest => do
    let (v, behind) ← read rest
    return ((String.ofList (cs.takeWhile continuesIdentifier), v), behind)
  | _ => none

-- What a slot holds of which the value was printed. None stands for an explicit "no value" where there can be one.
def slotOf (f : Field) : Option Value → Slot
  | none => .unset
  | some .none => if f.cardinality = .optional then .explicitNone else .value .none
  | some v => .value v

def nodeOf (schema : Schema) (given : List (String × Value)) : Node :=
  .mk schema (schema.fields.map fun f => slotOf f (given.lookup f.name))

def bytes? (quote : Char) : Reader Value := fun cs => do
  let (text, behind) ← unquote? quote cs
  return (.bytes (bytesOf text), behind)

def constant? (word : String) : Option Value :=
  if word = "None" then some .none
  else if word = "True" then some (.bool true)
  else if word = "False" then some (.bool false)
  else none

-- What a word begins: a node before an opening bracket, bytes before a quote, else a constant.
def worded? (r : Registry) (fields : Reader (List (String × Value))) (word : String) : Reader Value
  | '(' :: rest => do
    let schema ← r.get? word
    let (given, behind) ← fields rest
    return (.node (nodeOf schema given), behind)
  | '\'' :: rest => bytes? '\'' rest
  | '"' :: rest => bytes? '"' rest
  | rest => (constant? word).map fun v => (v, rest)

def inNumber (c : Char) : Bool := c = '-' || c.isDigit

def number? : Reader Value := fun cs => do
  let n ← Json.Numeral.toInt64? (String.ofList (cs.takeWhile inNumber))
  return (.int n, cs.dropWhile inNumber)

def value? (r : Registry) : Nat → Reader Value
  | 0, _ => none
  | _ + 1, [] => none
  | fuel + 1, c :: cs =>
    if c = '[' then do
      let (items, behind) ← elements? ']' (value? r fuel) fuel cs
      return (.list items, behind)
    else if c = '(' then do
      let (items, behind) ← elements? ')' (value? r fuel) fuel cs
      return (.tuple items, behind)
    else if isQuote c then do
      let (text, behind) ← unquote? c cs
      return (.str (String.ofList text), behind)
    else if startsIdentifier c then
      worded? r (elements? ')' (field? (value? r fuel)) fuel)
        (String.ofList ((c :: cs).takeWhile continuesIdentifier)) ((c :: cs).dropWhile continuesIdentifier)
    else number? (c :: cs)

def Closes (rest : List Char) : Prop := ∀ c ∈ rest.head?, c = ',' ∨ c = ')' ∨ c = ']'

theorem closes_nil : Closes [] := fun _ member => by cases member

theorem closes_comma (rest : List Char) : Closes (',' :: rest) := fun _ member => .inl (Option.some.inj member).symm

theorem closes_bracket {close : Char} (bracket : close = ')' ∨ close = ']') (rest : List Char) :
    Closes (close :: rest) := fun _ member => .inr ((Option.some.inj member) ▸ bracket)

theorem run_split {p : Char → Bool} {run rest : List Char} (all : ∀ c ∈ run, p c = true)
    (stops : ∀ c ∈ rest.head?, p c = false) :
    (run ++ rest).takeWhile p = run ∧ (run ++ rest).dropWhile p = rest := by
  rw [List.takeWhile_append_of_pos all, List.dropWhile_append_of_pos all]
  cases rest with
  | nil => exact ⟨List.append_nil _, rfl⟩
  | cons c rest =>
    have other := stops c rfl
    exact ⟨by simp [other], by simp [other]⟩

theorem closes_stops {p : Char → Bool} {rest : List Char} (closes : Closes rest)
    (none : p ',' = false ∧ p ')' = false ∧ p ']' = false) : ∀ c ∈ rest.head?, p c = false := by
  intro c first
  rcases closes c first with rfl | rfl | rfl
  · exact none.1
  · exact none.2.1
  · exact none.2.2

def joined {α : Type} (text : α → List Char) : List α → List Char
  | [] => []
  | a :: as => text a ++ as.flatMap fun b => ',' :: ' ' :: text b

-- A text that does not begin like the end of what it stands in.
def Opens (text : List Char) : Prop := ∃ c cs, text = c :: cs ∧ c ≠ ')' ∧ c ≠ ']'

section Elements

variable {α : Type} {close : Char} {read : Reader α} {text : α → List Char} {fuel : Nat} {a : α} {as : List α}
  {rest behind : List Char}

theorem elements_close (fuel : Nat) (rest : List Char) :
    elements? close read (fuel + 1) (close :: rest) = some ([], rest) := by
  rw [elements?, if_pos rfl]

theorem elements_cons (bracket : close = ')' ∨ close = ']') (opens : Opens (text a))
    (first : read (text a ++ rest) = some (a, rest))
    (others : elements? close read fuel (pastComma rest) = some (as, behind)) :
    elements? close read (fuel + 1) (text a ++ rest) = some (a :: as, behind) := by
  obtain ⟨c, cs, shape, notRound, notSquare⟩ := opens
  have apart : c ≠ close := by
    rcases bracket with rfl | rfl
    · exact notRound
    · exact notSquare
  rw [shape, List.cons_append] at first ⊢
  rw [elements?, if_neg apart, first]
  simp [others]

theorem pastComma_joined (bracket : close = ')' ∨ close = ']') (as : List α) (rest : List Char) :
    pastComma ((as.flatMap fun b => ',' :: ' ' :: text b) ++ close :: rest) = joined text as ++ close :: rest := by
  cases as with
  | nil => rcases bracket with rfl | rfl <;> rfl
  | cons a as => simp [pastComma, joined]

theorem joined_closes (bracket : close = ')' ∨ close = ']') (as : List α) (rest : List Char) :
    Closes ((as.flatMap fun b => ',' :: ' ' :: text b) ++ close :: rest) := by
  cases as with
  | nil => exact closes_bracket bracket rest
  | cons a as => exact closes_comma _

theorem elements_joined (bracket : close = ')' ∨ close = ']') (opens : ∀ a ∈ as, Opens (text a))
    (reads : ∀ a ∈ as, ∀ rest, Closes rest → read (text a ++ rest) = some (a, rest))
    (enough : as.length < fuel) (rest : List Char) :
    elements? close read fuel (joined text as ++ close :: rest) = some (as, rest) := by
  induction as generalizing fuel with
  | nil =>
    cases fuel with
    | zero => exact absurd enough (Nat.not_lt_zero _)
    | succ fuel => exact elements_close fuel rest
  | cons a as ih =>
    cases fuel with
    | zero => exact absurd enough (Nat.not_lt_zero _)
    | succ fuel =>
      have others := ih (fun b member => opens b (List.mem_cons_of_mem _ member))
        (fun b member => reads b (List.mem_cons_of_mem _ member)) (Nat.lt_of_succ_lt_succ enough)
      rw [joined, List.append_assoc]
      refine elements_cons bracket (opens a (List.mem_cons_self ..))
        (reads a (List.mem_cons_self ..) _ (joined_closes bracket as rest)) ?_
      rw [pastComma_joined bracket]
      exact others

theorem joined_length (opens : ∀ a ∈ as, Opens (text a)) : as.length ≤ (joined text as).length := by
  cases as with
  | nil => exact Nat.le_refl _
  | cons a as =>
    obtain ⟨c, cs, shape, -⟩ := opens a (List.mem_cons_self ..)
    have others : as.length ≤ (as.flatMap fun b => ',' :: ' ' :: text b).length := by
      clear opens
      induction as with
      | nil => exact Nat.le_refl _
      | cons b as ih =>
        rw [List.flatMap_cons, List.length_append, List.length_cons, List.length_cons, List.length_cons]
        omega
    rw [joined, shape, List.length_append, List.length_cons, List.length_cons]
    omega

theorem joined_mem (member : a ∈ as) : (text a).length ≤ (joined text as).length := by
  cases as with
  | nil => cases member
  | cons b as =>
    rw [joined, List.length_append]
    rcases List.mem_cons.mp member with rfl | later
    · omega
    · obtain ⟨before, after, rfl⟩ := List.append_of_mem later
      rw [List.flatMap_append, List.flatMap_cons, List.length_append, List.length_append, List.length_cons,
        List.length_cons]
      omega

end Elements

-- A value that a reader with some fuel reads back, whatever stands behind it.
def Reads (r : Registry) (fuel : Nat) (v : Value) : Prop :=
  ∀ rest, Closes rest → value? r fuel (v.chars ++ rest) = some (v, rest)

section Words

variable {r : Registry} {fuel : Nat} {word : String} {rest : List Char}

theorem identifier_start (identifier : isIdentifier word = true) :
    ∃ c cs, word.toList = c :: cs ∧ startsIdentifier c = true ∧ ∀ d ∈ c :: cs, continuesIdentifier d = true := by
  unfold isIdentifier at identifier
  cases shape : word.toList with
  | nil =>
    rw [shape] at identifier
    cases identifier
  | cons c cs =>
    simp only [shape, Bool.and_eq_true, List.all_eq_true] at identifier
    obtain ⟨starts, continues⟩ := identifier
    refine ⟨c, cs, rfl, starts, List.forall_mem_cons.mpr ⟨?_, continues⟩⟩
    rcases Bool.or_eq_true_iff.mp starts with letter | line
    · exact Bool.or_eq_true_iff.mpr (.inl (Bool.or_eq_true_iff.mpr (.inl letter)))
    · exact Bool.or_eq_true_iff.mpr (.inr line)

theorem identifier_opens (identifier : isIdentifier word = true) (behind : List Char) :
    Opens (word.toList ++ behind) := by
  obtain ⟨c, cs, shape, starts, -⟩ := identifier_start identifier
  refine ⟨c, cs ++ behind, by rw [shape, List.cons_append], ?_, ?_⟩ <;> (rintro rfl; cases starts)

theorem identifier_split (identifier : isIdentifier word = true)
    (stops : ∀ c ∈ rest.head?, continuesIdentifier c = false) :
    (word.toList ++ rest).takeWhile continuesIdentifier = word.toList ∧
      (word.toList ++ rest).dropWhile continuesIdentifier = rest := by
  obtain ⟨c, cs, shape, -, letters⟩ := identifier_start identifier
  exact run_split (shape ▸ letters) stops

theorem value_worded (identifier : isIdentifier word = true)
    (stops : ∀ c ∈ rest.head?, continuesIdentifier c = false) :
    value? r (fuel + 1) (word.toList ++ rest) =
      worded? r (elements? ')' (field? (value? r fuel)) fuel) word rest := by
  obtain ⟨before, behind⟩ := identifier_split identifier stops
  obtain ⟨c, cs, shape, starts, -⟩ := identifier_start identifier
  have square : c ≠ '[' := by rintro rfl; cases starts
  have round : c ≠ '(' := by rintro rfl; cases starts
  have unquoted : isQuote c = false := by
    cases quoted : isQuote c with
    | false => rfl
    | true => rcases Text.isQuote_cases quoted with rfl | rfl <;> cases starts
  rw [shape, List.cons_append] at before behind ⊢
  rw [value?, if_neg square, if_neg round, unquoted, if_neg Bool.false_ne_true, if_pos starts, before, behind, ← shape,
    String.ofList_toList]

theorem closes_worded {fields : Reader (List (String × Value))} (closes : Closes rest) :
    worded? r fields word rest = (constant? word).map fun v => (v, rest) := by
  cases rest with
  | nil => rfl
  | cons c rest => rcases closes c rfl with rfl | rfl | rfl <;> rfl

theorem constant_read {v : Value} (identifier : isIdentifier word = true) (names : constant? word = some v)
    (spelled : v.chars = word.toList) : Reads r (fuel + 1) v := by
  intro rest closes
  rw [spelled, value_worded identifier (closes_stops closes (by decide)), closes_worded closes, names]
  rfl

theorem inNumber_start {c : Char} (numeric : inNumber c = true) : c ≠ '[' ∧ c ≠ '(' ∧ c ≠ ')' ∧ c ≠ ']' ∧
    isQuote c = false ∧ startsIdentifier c = false := by
  rcases Bool.or_eq_true_iff.mp numeric with minus | digit
  · obtain rfl := of_decide_eq_true minus
    decide
  · have digits : ∀ k < 58, 48 ≤ k → Char.ofNat k ≠ '[' ∧ Char.ofNat k ≠ '(' ∧ Char.ofNat k ≠ ')' ∧
        Char.ofNat k ≠ ']' ∧ isQuote (Char.ofNat k) = false ∧ startsIdentifier (Char.ofNat k) = false := by decide
    have bounds : 48 ≤ c.toNat ∧ c.toNat < 58 := by
      rw [Char.isDigit, Bool.and_eq_true, decide_eq_true_eq, decide_eq_true_eq] at digit
      exact ⟨UInt32.le_iff_toNat_le.mp digit.1, Nat.lt_succ_of_le (UInt32.le_iff_toNat_le.mp digit.2)⟩
    have one := digits c.toNat bounds.2 bounds.1
    rwa [Char.ofNat_toNat] at one

theorem int_start (n : Int) : ∃ c cs, renderInt n = c :: cs ∧ ∀ d ∈ c :: cs, inNumber d = true := by
  have numeric : ∀ d ∈ renderInt n, inNumber d = true := by
    intro d member
    rcases List.mem_append.mp member with minus | digit
    · split at minus
      · exact List.mem_singleton.mp minus ▸ rfl
      · cases minus
    · exact Bool.or_eq_true_iff.mpr (.inr (Decimal.digits_isDigit digit))
  cases shape : renderInt n with
  | nil => exact absurd (List.append_eq_nil_iff.mp shape).2 Nat.toDigits_ne_nil
  | cons c cs => exact ⟨c, cs, rfl, shape ▸ numeric⟩

theorem int_read (n : Int64) : Reads r (fuel + 1) (.int n) := by
  intro rest closes
  change value? r (fuel + 1) (renderInt n.toInt ++ rest) = _
  obtain ⟨c, cs, shape, numeric⟩ := int_start n.toInt
  obtain ⟨before, behind⟩ := run_split numeric (closes_stops closes (by decide))
  obtain ⟨square, round, -, -, unquoted, letterless⟩ := inNumber_start (numeric c (List.mem_cons_self ..))
  have kept := Json.Numeral.toInt64_render n
  rw [shape] at kept ⊢
  rw [List.cons_append] at before behind ⊢
  rw [value?, if_neg square, if_neg round, unquoted, if_neg Bool.false_ne_true, letterless,
    if_neg Bool.false_ne_true, number?, before, behind, kept]
  rfl

end Words

section Literals

variable {r : Registry} {fuel : Nat}

theorem str_read (s : String) : Reads r (fuel + 1) (.str s) := by
  intro rest _
  obtain ⟨quote, body, marks, shape, read⟩ := Text.literal_read s rest
  change value? r (fuel + 1) (Text.literal s ++ rest) = _
  rw [shape, value?]
  rcases Text.isQuote_cases marks with rfl | rfl <;> simp [isQuote, read]

theorem bytes_read (bs : List UInt8) : Reads r (fuel + 1) (.bytes bs) := by
  intro rest _
  obtain ⟨quote, body, cs, marks, shape, read, same⟩ := Text.bytesLiteral_read bs rest
  have word : isIdentifier "b" = true := by decide
  have stops : ∀ c ∈ (quote :: body).head?, continuesIdentifier c = false := by
    intro c first
    cases first
    rcases Text.isQuote_cases marks with rfl | rfl <;> decide
  change value? r (fuel + 1) (Text.bytesLiteral bs ++ rest) = _
  rw [shape]
  refine (value_worded word stops).trans ?_
  rcases Text.isQuote_cases marks with rfl | rfl <;> simp [worded?, bytes?, read, same]

end Literals

theorem listChars_joined (items : List Value) : Value.listChars items = joined Value.chars items := by
  induction items with
  | nil => rfl
  | cons v rest ih =>
    cases rest with
    | nil => simp [Value.listChars, joined]
    | cons w rest =>
      rw [Value.listChars, ih, joined, joined, List.flatMap_cons]
      · simp
      · exact List.cons_ne_nil w rest

def shown? : Slot → Option Value
  | .unset => none
  | .explicitNone => some .none
  | .value v => some v

def given : List Field → List Slot → List (String × Value)
  | f :: fs, s :: ss => ((shown? s).map fun v => (f.name, v)).toList ++ given fs ss
  | _, _ => []

def fieldChars (named : String × Value) : List Char := named.1.toList ++ '=' :: named.2.chars

theorem listChars_given (fs : List Field) (ss : List Slot) :
    Slot.listChars true fs ss = joined fieldChars (given fs ss) ∧
      Slot.listChars false fs ss = (given fs ss).flatMap fun named => ',' :: ' ' :: fieldChars named := by
  induction fs generalizing ss with
  | nil => cases ss <;> exact ⟨rfl, rfl⟩
  | cons f fs ih =>
    cases ss with
    | nil => exact ⟨rfl, rfl⟩
    | cons s ss =>
      obtain ⟨first, later⟩ := ih ss
      cases s with
      | unset => exact ⟨first, later⟩
      | explicitNone =>
        constructor
        · simp [Slot.listChars, given, shown?, joined, fieldChars, Value.chars, later]
        · simp [Slot.listChars, given, shown?, fieldChars, Value.chars, later]
      | value v =>
        constructor
        · simp [Slot.listChars, given, shown?, joined, fieldChars, later]
        · simp [Slot.listChars, given, shown?, fieldChars, later]

theorem tuple_chars (items : List Value) : (Value.tuple items).chars =
    '(' :: (joined Value.chars items ++ (if items.length = 1 then [',', ')'] else [')'])) := by
  rcases items with _ | ⟨v, _ | ⟨w, rest⟩⟩
  · rfl
  · simp [Value.chars, joined]
  · simp [Value.chars, listChars_joined]

end Reading

def Node.read? (r : Registry) (text : String) : Option Node :=
  match Reading.value? r text.toList.length text.toList with
  | some (.node n, []) => some n
  | _ => none

end TreeLowering
