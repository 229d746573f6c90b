import TreeLowering.Translate

namespace TreeLowering.Translator

variable {α β : Type}

-- What a conversion gives and what it has to say, on the empty log.
def answer (c : Converting α) : α := (c.run .empty).1
def messages (c : Converting α) : List Message := (c.run .empty).2.messages

-- Neither reads the log nor touches what is in it.
def Appends (c : Converting α) : Prop :=
  ∀ log, c.run log = (answer c, ⟨log.messages ++ messages c⟩)

theorem appends_pure (a : α) : Appends (pure a : Converting α) := by
  intro log
  change (a, log) = (a, ⟨log.messages ++ []⟩)
  rw [List.append_nil]

theorem appends_fail (text : String) (line : Option UInt32) :
    Appends (fail (α := α) text line) := by
  intro log
  rfl

theorem run_bind {c : Converting α} {k : α → Converting β} (first : Appends c)
    (rest : Appends (k (answer c))) (log : ErrorLog) :
    (c >>= k).run log =
      (answer (k (answer c)), ⟨log.messages ++ messages c ++ messages (k (answer c))⟩) := by
  rw [StateT.run_bind, first log]
  exact rest _

theorem answer_bind {c : Converting α} {k : α → Converting β} (first : Appends c)
    (rest : Appends (k (answer c))) : answer (c >>= k) = answer (k (answer c)) := by
  change ((c >>= k).run .empty).1 = _
  rw [run_bind first rest]

theorem messages_bind {c : Converting α} {k : α → Converting β} (first : Appends c)
    (rest : Appends (k (answer c))) : messages (c >>= k) = messages c ++ messages (k (answer c)) := by
  change ((c >>= k).run .empty).2.messages = _
  rw [run_bind first rest]
  rfl

theorem Appends.bind {c : Converting α} {k : α → Converting β} (first : Appends c)
    (rest : ∀ a, Appends (k a)) : Appends (c >>= k) := by
  intro log
  rw [run_bind first (rest _), answer_bind first (rest _), messages_bind first (rest _), List.append_assoc]

theorem answer_then {c : Converting α} (first : Appends c) (f : α → β) :
    answer (do return f (← c)) = f (answer c) :=
  answer_bind first (appends_pure _)

theorem messages_then {c : Converting α} (first : Appends c) (f : α → β) :
    messages (do return f (← c)) = messages c :=
  (messages_bind first (appends_pure _)).trans (List.append_nil _)

theorem answer_both {γ : Type} {c : Converting α} {d : Converting β} (first : Appends c) (second : Appends d)
    (f : α → β → γ) : answer (do return f (← c) (← d)) = f (answer c) (answer d) :=
  (answer_bind first (second.bind fun _ => appends_pure _)).trans (answer_then second _)

theorem messages_both {γ : Type} {c : Converting α} {d : Converting β} (first : Appends c) (second : Appends d)
    (f : α → β → γ) : messages (do return f (← c) (← d)) = messages c ++ messages d := by
  rw [messages_bind first (second.bind fun _ => appends_pure _), messages_then second]

@[simp] theorem answer_pure (a : α) : answer (pure a : Converting α) = a := rfl
@[simp] theorem messages_pure (a : α) : messages (pure a : Converting α) = [] := rfl
@[simp] theorem answer_fail (text : String) (line : Option UInt32) :
    answer (fail (α := α) text line) = none := rfl
@[simp] theorem messages_fail (text : String) (line : Option UInt32) :
    messages (fail (α := α) text line) = [⟨text, line⟩] := rfl

theorem build_appends (t : Translator) (kind : String) (fields : List (String × Value))
    (line : Option UInt32) : Appends (t.build kind fields line) := by
  unfold build
  split
  · exact appends_fail _ _
  · dsimp only
    split
    · exact appends_pure _
    · exact appends_fail _ _

theorem build_silent (t : Translator) (kind : String) (fields : List (String × Value))
    (line : Option UInt32) :
    (answer (t.build kind fields line)).isNone = !(messages (t.build kind fields line)).isEmpty := by
  unfold build
  split
  · rfl
  · dsimp only
    split <;> rfl

-- The fields that a node is built from: what is declared, and of the rest what is not blank.
def tolerated (schema : Schema) (fields : List (String × Value)) : List (String × Value) :=
  fields.filter fun f => (schema.resolve? f.1).isSome || !isBlank f.2

theorem build_made {t : Translator} {kind : String} {fields : List (String × Value)}
    {line : Option UInt32} {made : Node} : answer (t.build kind fields line) = some made ↔
      ∃ schema, t.registry.get? kind = some schema ∧
        Node.ofFields schema (tolerated schema fields) = .ok made := by
  unfold build
  cases t.registry.get? kind with
  | none => simp
  | some schema =>
    have kept : fields.filter (fun f => (schema.resolve? f.1).isSome || !isBlank f.2) =
        tolerated schema fields := rfl
    simp only [Option.some.injEq, exists_eq_left', kept]
    cases Node.ofFields schema (tolerated schema fields) with
    | ok n => simp
    | error e => simp

theorem buildLiteral_appends (t : Translator) (literal : Except String Literal) (line : Option UInt32) :
    Appends (t.buildLiteral literal line) := by
  cases literal with
  | ok literal => exact build_appends t _ _ line
  | error text => exact appends_fail _ _

theorem features_appends (line : Option UInt32) (items : List Native.Value) :
    Appends (features line items) := by
  induction items with
  | nil => exact appends_pure _
  | cons item rest ih =>
    unfold features
    split
    · exact ih
    · split
      · exact ih.bind fun _ => appends_pure _
      · exact (appends_fail _ _).bind fun _ => ih

theorem buildFeatures_appends (t : Translator) (names : Option Native.Value) (line : Option UInt32) :
    Appends (t.buildFeatures names line) := by
  refine (features_appends line _).bind fun found => ?_
  split
  · exact appends_pure _
  · exact build_appends t _ _ line

variable (t : Translator)

mutual
theorem convertNode_appends (n : Native.Node) : Appends (t.convertNode n) := by
  cases n with
  | mk kind line fields =>
    have usual : Appends (do t.build kind (← t.convertFields line fields) line) :=
      (convertFields_appends line fields).bind fun _ => build_appends t _ _ _
    unfold convertNode
    dsimp only
    split
    · exact usual
    · split
      · exact build_appends t _ _ line
      · exact usual
    · exact buildLiteral_appends t _ line
    · exact buildLiteral_appends t _ line
    · split
      · split
        · exact buildFeatures_appends t _ line
        · exact usual
      · exact usual
    · exact convertWrapped_appends line fields
    · exact appends_pure _
termination_by structural n

theorem convertFields_appends (line : Option UInt32) (fields : List (String × Native.Value)) :
    Appends (t.convertFields line fields) := by
  cases fields with
  | nil => exact appends_pure _
  | cons field rest =>
    obtain ⟨name, v⟩ := field
    unfold convertFields
    refine (convertValue_appends line v).bind fun found => (convertFields_appends line rest).bind fun others => ?_
    cases found with
    | none => exact appends_pure _
    | some v => exact appends_pure _
termination_by structural fields

theorem convertWrapped_appends (line : Option UInt32) (fields : List (String × Native.Value)) :
    Appends (t.convertWrapped line fields) := by
  cases fields with
  | nil => exact appends_fail _ _
  | cons field rest =>
    obtain ⟨name, v⟩ := field
    unfold convertWrapped
    split
    · cases v with
      | node inner => exact convertNode_appends inner
      | _ => exact appends_fail _ _
    · exact convertWrapped_appends line rest
termination_by structural fields

theorem convertValue_appends (line : Option UInt32) (v : Native.Value) : Appends (t.convertValue line v) := by
  cases v with
  | node n =>
    unfold convertValue
    exact (convertNode_appends n).bind fun _ => appends_pure _
  | list items =>
    unfold convertValue
    exact (convertItems_appends line items).bind fun _ => appends_pure _
  | bigInt text => exact appends_fail _ _
  | foreign text => exact appends_fail _ _
  | _ => exact appends_pure _
termination_by structural v

theorem convertItems_appends (line : Option UInt32) (items : List Native.Value) :
    Appends (t.convertItems line items) := by
  cases items with
  | nil => exact appends_pure _
  | cons v rest =>
    unfold convertItems
    refine (convertValue_appends line v).bind fun found => (convertItems_appends line rest).bind fun others => ?_
    split
    · exact appends_pure _
    · exact appends_pure _
termination_by structural items
end

variable (line : Option UInt32)

theorem convertValue_node (n : Native.Node) :
    answer (t.convertValue line (.node n)) = (answer (t.convertNode n)).map .node ∧
      messages (t.convertValue line (.node n)) = messages (t.convertNode n) := by
  unfold convertValue
  have converted := convertNode_appends t n
  exact ⟨answer_then converted _, messages_then converted _⟩

theorem convertValue_list (items : List Native.Value) :
    answer (t.convertValue line (.list items)) = (answer (t.convertItems line items)).map .list ∧
      messages (t.convertValue line (.list items)) = messages (t.convertItems line items) := by
  unfold convertValue
  have converted := convertItems_appends t line items
  exact ⟨answer_then converted _, messages_then converted _⟩

theorem convertItems_cons (v : Native.Value) (rest : List Native.Value) :
    answer (t.convertItems line (v :: rest)) =
        (answer (t.convertValue line v)).bind (fun v => (answer (t.convertItems line rest)).map (v :: ·)) ∧
      messages (t.convertItems line (v :: rest)) =
        messages (t.convertValue line v) ++ messages (t.convertItems line rest) := by
  have first := convertValue_appends t line v
  have others := convertItems_appends t line rest
  have shape : t.convertItems line (v :: rest) = (do
      let found ← t.convertValue line v
      let others ← t.convertItems line rest
      return found.bind fun v => others.map (v :: ·)) := by
    rw [convertItems]
    refine bind_congr fun found => bind_congr fun others => ?_
    cases found <;> cases others <;> rfl
  rw [shape]
  exact ⟨answer_both first others fun found rest => found.bind fun v => rest.map (v :: ·),
    messages_both first others _⟩

theorem convertFields_cons (name : String) (v : Native.Value) (rest : List (String × Native.Value)) :
    answer (t.convertFields line ((name, v) :: rest)) =
        ((answer (t.convertValue line v)).map (name, ·)).toList ++ answer (t.convertFields line rest) ∧
      messages (t.convertFields line ((name, v) :: rest)) =
        messages (t.convertValue line v) ++ messages (t.convertFields line rest) := by
  have first := convertValue_appends t line v
  have others := convertFields_appends t line rest
  have shape : t.convertFields line ((name, v) :: rest) = (do
      return ((← t.convertValue line v).map (name, ·)).toList ++ (← t.convertFields line rest)) := by
    rw [convertFields]
    refine bind_congr fun found => bind_congr fun others => ?_
    cases found <;> rfl
  rw [shape]
  exact ⟨answer_both first others fun found rest => (found.map (name, ·)).toList ++ rest,
    messages_both first others _⟩

theorem convertFields_answer (fields : List (String × Native.Value)) :
    answer (t.convertFields line fields) =
      fields.filterMap fun f => (answer (t.convertValue line f.2)).map (f.1, ·) := by
  induction fields with
  | nil => rfl
  | cons field rest ih =>
    obtain ⟨name, v⟩ := field
    rw [(convertFields_cons t line name v rest).1, ih]
    cases given : answer (t.convertValue line v) with
    | none => simp [given]
    | some v => simp [given]

-- Every field and every element has its say, whatever becomes of the others.
theorem convertFields_messages (fields : List (String × Native.Value)) :
    messages (t.convertFields line fields) = fields.flatMap fun f => messages (t.convertValue line f.2) := by
  induction fields with
  | nil => rfl
  | cons field rest ih =>
    obtain ⟨name, v⟩ := field
    rw [(convertFields_cons t line name v rest).2, ih, List.flatMap_cons]

theorem convertItems_messages (items : List Native.Value) :
    messages (t.convertItems line items) = items.flatMap fun v => messages (t.convertValue line v) := by
  induction items with
  | nil => rfl
  | cons v rest ih => rw [(convertItems_cons t line v rest).2, ih, List.flatMap_cons]

theorem convertFields_quiet {fields : List (String × Native.Value)}
    (quiet : messages (t.convertFields line fields) = []) {name : String} {v : Native.Value}
    (member : (name, v) ∈ fields) : messages (t.convertValue line v) = [] := by
  induction fields with
  | nil => cases member
  | cons field rest ih =>
    obtain ⟨key, w⟩ := field
    rw [(convertFields_cons t line key w rest).2, List.append_eq_nil_iff] at quiet
    cases member with
    | head => exact quiet.1
    | tail _ later => exact ih quiet.2 later

theorem convertItems_quiet {items : List Native.Value}
    (quiet : messages (t.convertItems line items) = []) {v : Native.Value} (member : v ∈ items) :
    messages (t.convertValue line v) = [] := by
  induction items with
  | nil => cases member
  | cons w rest ih =>
    rw [(convertItems_cons t line w rest).2, List.append_eq_nil_iff] at quiet
    cases member with
    | head => exact quiet.1
    | tail _ later => exact ih quiet.2 later

-- What the usual translator does with a native node: a node of the same kind from its converted fields, a
-- literal, an import of language features, the node under a wrapper, or only a message.
inductive Route where
  | usual
  | literal (l : Except String Literal)
  | features (names : Option Native.Value)
  | wrapped (inner : Native.Node)
  | bare

def nameRoute (fields : List (String × Native.Value)) : Route :=
  match singleton? (Keyed.lookup? "id" fields) with
  | some v => .literal (.ok ("NameConstant", "value", v))
  | none => .usual

def importRoute (fields : List (String × Native.Value)) : Route :=
  match Keyed.lookup? "module" fields with
  | some (.str module) => if module = futureModule then .features (Keyed.lookup? "names" fields) else .usual
  | _ => .usual

def wrapperRoute (fields : List (String × Native.Value)) : Route :=
  match Keyed.lookup? "value" fields with
  | some (.node inner) => .wrapped inner
  | _ => .bare

def route (n : Native.Node) : Route :=
  if n.kind = "Name" then nameRoute n.fields
  else if n.kind = "Num" then .literal (number (n.get? "n"))
  else if n.kind = "Constant" then .literal (constant (n.get? "value"))
  else if n.kind = "ImportFrom" then importRoute n.fields
  else if n.kind = "Index" then wrapperRoute n.fields
  else .usual

def follow (t : Translator) (n : Native.Node) : Route → Converting (Option Node)
  | .usual => do t.build n.kind (← t.convertFields n.line n.fields) n.line
  | .literal l => t.buildLiteral l n.line
  | .features names => t.buildFeatures names n.line
  | .wrapped inner => t.convertNode inner
  | .bare => fail "Index without a value" n.line

theorem usual_built (n : Native.Node) :
    answer (t.follow n .usual) = answer (t.build n.kind (answer (t.convertFields n.line n.fields)) n.line) ∧
      messages (t.follow n .usual) = messages (t.convertFields n.line n.fields) ++
        messages (t.build n.kind (answer (t.convertFields n.line n.fields)) n.line) := by
  have fields := convertFields_appends t n.line n.fields
  have built := build_appends t n.kind (answer (t.convertFields n.line n.fields)) n.line
  exact ⟨answer_bind fields built, messages_bind fields built⟩

theorem convertWrapped_route (line : Option UInt32) (fields : List (String × Native.Value)) :
    t.convertWrapped line fields =
      match Keyed.lookup? "value" fields with
      | some (.node inner) => t.convertNode inner
      | _ => fail "Index without a value" line := by
  induction fields with
  | nil => rfl
  | cons field rest ih =>
    obtain ⟨name, v⟩ := field
    unfold convertWrapped
    by_cases same : name = "value"
    · subst same
      cases v <;> rfl
    · have next : Keyed.lookup? "value" ((name, v) :: rest) = Keyed.lookup? "value" rest := by
        simp [Keyed.lookup?, same]
      rw [if_neg same, ih, next]

theorem handler_none (r : Registry) {kind : String}
    (free : kind ∉ ["Name", "Num", "Constant", "ImportFrom", "Index"]) :
    Keyed.lookup? kind (standard r).handlers = none := by
  simp only [List.mem_cons, List.not_mem_nil, or_false, not_or] at free
  obtain ⟨name, number, constant, imports, index⟩ := free
  simp [Keyed.lookup?, standard, Ne.symm name, Ne.symm number, Ne.symm constant, Ne.symm imports,
    Ne.symm index]

theorem convertNode_route (r : Registry) (n : Native.Node) :
    (standard r).convertNode n = (standard r).follow n (route n) := by
  obtain ⟨kind, line, fields⟩ := n
  by_cases free : kind ∈ ["Name", "Num", "Constant", "ImportFrom", "Index"]
  · simp only [List.mem_cons, List.not_mem_nil, or_false] at free
    unfold convertNode
    rcases free with rfl | rfl | rfl | rfl | rfl
    · change (match singleton? (Keyed.lookup? "id" fields) with | some v => _ | none => _) =
        follow _ _ (nameRoute fields)
      unfold nameRoute
      split <;> rfl
    · rfl
    · rfl
    · change (match Keyed.lookup? "module" fields with | some (.str module) => _ | _ => _) =
        follow _ _ (importRoute fields)
      unfold importRoute
      split
      · split <;> rfl
      · rfl
    · change convertWrapped _ line fields = follow _ _ (wrapperRoute fields)
      rw [convertWrapped_route]
      unfold wrapperRoute
      split <;> rfl
  · have unhandled := handler_none r free
    simp only [List.mem_cons, List.not_mem_nil, or_false, not_or] at free
    obtain ⟨name, number, constant, imports, index⟩ := free
    have usual : route (.mk kind line fields) = .usual := by
      simp [route, Native.Node.kind, name, number, constant, imports, index]
    rw [usual]
    unfold convertNode
    dsimp only
    rw [unhandled]
    rfl

end TreeLowering.Translator
