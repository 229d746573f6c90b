import TreeLowering.Proofs.Converting
import TreeLowering.Proofs.Assignment

namespace TreeLowering

-- The nodes that stand in a field or in the sequences of a field.
inductive Native.Value.Holds : Native.Value → Native.Node → Prop where
  | node (n : Native.Node) : Holds (.node n) n
  | item {items : List Native.Value} {v : Native.Value} {n : Native.Node} (member : v ∈ items)
      (held : Holds v n) : Holds (.list items) n

namespace Translator

def importEntries : Option Native.Value → List Native.Value
  | some (.list items) => items
  | _ => []

def importNames (names : Option Native.Value) : List String := (importEntries names).filterMap aliasName?

inductive Silent : Native.Node → Prop where
  | nameless {n : Native.Node} {names : Option Native.Value} (imports : route n = .features names)
      (nothing : importNames names = []) : Silent n
  | wrapped {n inner : Native.Node} (wraps : route n = .wrapped inner) (silent : Silent inner) : Silent n

-- A value is lost with the first silent node in it, a sequence as a whole.
def Lost (v : Native.Value) : Prop := ∃ n, v.Holds n ∧ Silent n

-- The nodes that are converted on the way through a tree.
inductive Visits : Native.Node → Native.Node → Prop where
  | self (n : Native.Node) : Visits n n
  | part {n m k : Native.Node} {name : String} {v : Native.Value} (usual : route n = .usual)
      (field : (name, v) ∈ n.fields) (held : v.Holds m) (rest : Visits m k) : Visits n k
  | inside {n m k : Native.Node} (wraps : route n = .wrapped m) (rest : Visits m k) : Visits n k

theorem features_answer (line : Option UInt32) (items : List Native.Value) :
    answer (features line items) =
      ((items.filterMap aliasName?).filter fun name => knownFeatures.contains name).map .str := by
  induction items with
  | nil => rfl
  | cons item rest ih =>
    unfold features
    cases named : aliasName? item with
    | none => simpa [named] using ih
    | some name =>
      dsimp only
      rw [List.filterMap_cons_some named]
      cases known : knownFeatures.contains name with
      | true =>
        rw [if_pos rfl, answer_then (features_appends line rest), ih, List.filter_cons_of_pos known]
        rfl
      | false =>
        rw [if_neg Bool.false_ne_true, answer_bind (appends_fail _ _) (features_appends line rest), ih,
          List.filter_cons_of_neg (by rw [known]; exact Bool.false_ne_true)]

theorem features_messages (line : Option UInt32) (items : List Native.Value) :
    messages (features line items) =
      ((items.filterMap aliasName?).filter fun name => !knownFeatures.contains name).map fun name =>
        ⟨"future feature " ++ name ++ " is not defined", line⟩ := by
  induction items with
  | nil => rfl
  | cons item rest ih =>
    unfold features
    cases named : aliasName? item with
    | none => simpa [named] using ih
    | some name =>
      dsimp only
      rw [List.filterMap_cons_some named]
      cases known : knownFeatures.contains name with
      | true =>
        rw [if_pos rfl, messages_then (features_appends line rest), ih,
          List.filter_cons_of_neg (by rw [known]; exact Bool.false_ne_true)]
      | false =>
        rw [if_neg Bool.false_ne_true, messages_bind (appends_fail _ _) (features_appends line rest), ih,
          List.filter_cons_of_pos (by rw [known]; rfl)]
        rfl

theorem features_quiet {line : Option UInt32} {items : List Native.Value}
    (quiet : messages (features line items) = []) :
    answer (features line items) = (items.filterMap aliasName?).map .str := by
  rw [features_messages, List.map_eq_nil_iff, List.filter_eq_nil_iff] at quiet
  rw [features_answer, List.filter_eq_self.mpr]
  intro name member
  simpa using quiet name member

theorem importBuild_appends (t : Translator) (found : List Value) (line : Option UInt32) :
    Appends (if found.isEmpty then pure none else
      t.build "FutureImport" [("features", .list found)] line : Converting (Option Node)) := by
  split
  · exact appends_pure _
  · exact build_appends t _ _ line

theorem buildFeatures_eq (t : Translator) (names : Option Native.Value) (line : Option UInt32) :
    t.buildFeatures names line = (do
      let found ← features line (importEntries names)
      if found.isEmpty then return none else t.build "FutureImport" [("features", .list found)] line) := by
  unfold buildFeatures importEntries
  rfl

theorem build_failed {t : Translator} {kind : String} {fields : List (String × Value)}
    {line : Option UInt32} (failed : answer (t.build kind fields line) = none) :
    messages (t.build kind fields line) ≠ [] := by
  intro quiet
  have complained := build_silent t kind fields line
  rw [failed, quiet] at complained
  cases complained

theorem buildLiteral_failed {t : Translator} {literal : Except String Literal} {line : Option UInt32}
    (failed : answer (t.buildLiteral literal line) = none) :
    messages (t.buildLiteral literal line) ≠ [] := by
  cases literal with
  | ok literal => exact build_failed (t := t) failed
  | error text => exact List.cons_ne_nil _ _

theorem buildFeatures_silent (t : Translator) (names : Option Native.Value) (line : Option UInt32) :
    (answer (t.buildFeatures names line) = none ∧ messages (t.buildFeatures names line) = []) ↔
      importNames names = [] := by
  have collected := features_appends line (importEntries names)
  have built := fun found => importBuild_appends t found line
  rw [buildFeatures_eq, answer_bind collected (built _), messages_bind collected (built _),
    List.append_eq_nil_iff]
  constructor
  · intro shape
    obtain ⟨none, quiet, quietBuild⟩ := shape
    rw [features_quiet quiet] at none quietBuild
    split at none
    · next empty => simpa [importNames] using empty
    · next nonempty =>
      rw [if_neg nonempty] at quietBuild
      exact absurd quietBuild (build_failed none)
  · intro nameless
    have nothing : answer (features line (importEntries names)) = [] := by
      rw [features_answer]
      change ((importNames names).filter _).map _ = []
      rw [nameless]
      rfl
    have quiet : messages (features line (importEntries names)) = [] := by
      rw [features_messages]
      change ((importNames names).filter _).map _ = []
      rw [nameless]
      rfl
    rw [nothing, quiet]
    exact ⟨rfl, rfl, rfl⟩

theorem lookup_mem {key : String} {v : Native.Value} {fields : List (String × Native.Value)}
    (found : Keyed.lookup? key fields = some v) : (key, v) ∈ fields := by
  unfold Keyed.lookup? at found
  obtain ⟨pair, hit, rfl⟩ := Option.map_eq_some_iff.mp found
  have same : pair.1 = key := by simpa using List.find?_some hit
  rw [← same]
  exact List.mem_of_find?_eq_some hit

theorem route_wrapped {n inner : Native.Node} : route n = .wrapped inner ↔
    n.kind = "Index" ∧ Keyed.lookup? "value" n.fields = some (.node inner) := by
  constructor
  · intro wraps
    unfold route at wraps
    by_cases index : n.kind = "Index"
    · refine ⟨index, ?_⟩
      have chosen : wrapperRoute n.fields = .wrapped inner := by simpa [index] using wraps
      unfold wrapperRoute at chosen
      split at chosen
      · next found =>
        cases chosen
        exact found
      · cases chosen
    · exfalso
      rw [if_neg index] at wraps
      unfold nameRoute importRoute at wraps
      repeat' split at wraps
      all_goals cases wraps
  · intro shape
    obtain ⟨index, found⟩ := shape
    simp [route, index, wrapperRoute, found]

theorem wrapped_field {n inner : Native.Node} (wraps : route n = .wrapped inner) :
    ("value", .node inner) ∈ n.fields :=
  lookup_mem (route_wrapped.mp wraps).2

theorem field_smaller {n : Native.Node} {f : String × Native.Value} (field : f ∈ n.fields) :
    sizeOf f.2 < sizeOf n := by
  obtain ⟨kind, line, fields⟩ := n
  obtain ⟨name, v⟩ := f
  have part := List.sizeOf_lt_of_mem field
  simp only [Native.Node.fields, Prod.mk.sizeOf_spec] at part
  simp only [Native.Node.mk.sizeOf_spec]
  omega

theorem wrapped_smaller {n inner : Native.Node} (wraps : route n = .wrapped inner) :
    sizeOf inner < sizeOf n := by
  have part := field_smaller (wrapped_field wraps)
  simp only [Native.Value.node.sizeOf_spec] at part
  omega

variable (r : Registry)

theorem usual_fails_aloud {n : Native.Node}
    (failed : answer ((standard r).follow n .usual) = none) :
    messages ((standard r).follow n .usual) ≠ [] := by
  have fields := convertFields_appends (standard r) n.line n.fields
  have built := fun kept => build_appends (standard r) n.kind kept n.line
  unfold follow at failed ⊢
  rw [answer_bind fields (built _)] at failed
  rw [messages_bind fields (built _), Ne, List.append_eq_nil_iff, not_and]
  exact fun _ => build_failed failed

theorem silent_route (n : Native.Node) :
    Silent n ↔ match route n with
      | .features names => importNames names = []
      | .wrapped inner => Silent inner
      | _ => False := by
  constructor
  · intro silent
    cases silent with
    | nameless imports nothing => rw [imports]; exact nothing
    | wrapped wraps silent => rw [wraps]; exact silent
  · intro shape
    split at shape
    · next imports => exact .nameless imports shape
    · next wraps => exact .wrapped wraps shape
    · exact shape.elim

-- Along a chain of wrappers the induction goes inward; every other way of failing says something.
theorem silent_exact (n : Native.Node) :
    (answer ((standard r).convertNode n) = none ∧ messages ((standard r).convertNode n) = []) ↔
      Silent n := by
  rw [convertNode_route, silent_route]
  cases way : route n with
  | usual => exact ⟨fun both => usual_fails_aloud r both.1 both.2, False.elim⟩
  | literal l => exact ⟨fun both => buildLiteral_failed both.1 both.2, False.elim⟩
  | features names => exact buildFeatures_silent (standard r) names n.line
  | wrapped inner =>
    have smaller := wrapped_smaller way
    exact silent_exact inner
  | bare => exact ⟨fun both => List.cons_ne_nil _ _ both.2, False.elim⟩
termination_by sizeOf n

variable (line : Option UInt32)

theorem items_fail {t : Translator} {items : List Native.Value} :
    answer (t.convertItems line items) = none ↔ ∃ v ∈ items, answer (t.convertValue line v) = none := by
  induction items with
  | nil =>
    constructor
    · intro failed
      cases failed
    · intro shape
      obtain ⟨v, impossible, -⟩ := shape
      cases impossible
  | cons v rest ih =>
    simp only [(convertItems_cons t line v rest).1, List.mem_cons, exists_eq_or_imp, ← ih]
    cases answer (t.convertValue line v) <;> simp

mutual
theorem value_lost (v : Native.Value)
    (quiet : messages ((standard r).convertValue line v) = []) :
    answer ((standard r).convertValue line v) = none ↔ Lost v := by
  cases v with
  | node n =>
    have converted := convertValue_node (standard r) line n
    rw [converted.2] at quiet
    rw [converted.1, Option.map_eq_none_iff]
    constructor
    · intro failed
      exact ⟨n, .node n, (silent_exact r n).mp ⟨failed, quiet⟩⟩
    · intro shape
      obtain ⟨m, held, silent⟩ := shape
      cases held
      exact ((silent_exact r n).mpr silent).1
  | list items =>
    have converted := convertValue_list (standard r) line items
    rw [converted.2] at quiet
    rw [converted.1, Option.map_eq_none_iff, items_fail]
    constructor
    · intro shape
      obtain ⟨v, member, failed⟩ := shape
      obtain ⟨m, held, silent⟩ := (items_lost items quiet v member).mp failed
      exact ⟨m, .item member held, silent⟩
    · intro shape
      obtain ⟨m, held, silent⟩ := shape
      cases held with
      | item member held => exact ⟨_, member, (items_lost items quiet _ member).mpr ⟨m, held, silent⟩⟩
  | bigInt text => cases quiet
  | foreign text => cases quiet
  | _ =>
    constructor
    · intro failed
      cases failed
    · intro shape
      obtain ⟨m, held, -⟩ := shape
      cases held
termination_by structural v

theorem items_lost (items : List Native.Value)
    (quiet : messages ((standard r).convertItems line items) = []) (v : Native.Value) (member : v ∈ items) :
    answer ((standard r).convertValue line v) = none ↔ Lost v := by
  cases items with
  | nil => cases member
  | cons w rest =>
    rw [(convertItems_cons (standard r) line w rest).2, List.append_eq_nil_iff] at quiet
    cases List.mem_cons.mp member with
    | inl same => rw [same]; exact value_lost w quiet.1
    | inr later => exact items_lost rest quiet.2 v later
termination_by structural items
end

theorem held_quiet {v : Native.Value} {n : Native.Node} (t : Translator)
    (quiet : messages (t.convertValue line v) = []) (held : v.Holds n) : messages (t.convertNode n) = [] := by
  induction held with
  | node n => rw [← (convertValue_node t line n).2]; exact quiet
  | item member held ih =>
    rw [(convertValue_list t line _).2] at quiet
    exact ih (convertItems_quiet t line quiet member)

theorem visits_quiet {root n : Native.Node} (visited : Visits root n)
    (quiet : messages ((standard r).convertNode root) = []) : messages ((standard r).convertNode n) = [] := by
  induction visited with
  | self => exact quiet
  | @part n m k name v usual field held rest ih =>
    refine ih ?_
    have fields := convertFields_appends (standard r) n.line n.fields
    rw [convertNode_route, usual, follow, messages_bind fields (build_appends _ _ _ _),
      List.append_eq_nil_iff] at quiet
    exact held_quiet n.line _ (convertFields_quiet _ n.line quiet.1 field) held
  | inside wraps rest ih =>
    refine ih ?_
    rw [convertNode_route, wraps] at quiet
    exact quiet

-- A field stands in the node that is made when its converted value is the value of the field there.
def Stands (t : Translator) (n : Native.Node) (made : Node) (name : String) (v : Native.Value) : Prop :=
  ∃ w, answer (t.convertValue n.line v) = some w ∧ made.get? name = some w

theorem lastGiven_append (name : String) (xs ys : List (String × Value)) :
    Node.lastGiven? name (xs ++ ys) = (Node.lastGiven? name ys).or (Node.lastGiven? name xs) := by
  induction xs with
  | nil => simp [Node.lastGiven?]
  | cons x xs ih =>
    obtain ⟨key, v⟩ := x
    rw [List.cons_append, Node.lastGiven?, Node.lastGiven?, ih, Option.or_assoc]

theorem lastGiven_none {name : String} {fields : List (String × Value)}
    (absent : ∀ f ∈ fields, f.1 ≠ name) : Node.lastGiven? name fields = none := by
  induction fields with
  | nil => rfl
  | cons f rest ih =>
    obtain ⟨key, v⟩ := f
    have other : key ≠ name := absent _ (List.mem_cons_self ..)
    rw [Node.lastGiven?, ih fun f member => absent f (List.mem_cons_of_mem _ member), if_neg other]
    rfl

theorem held_solid {t : Translator} {v : Native.Value} {m : Native.Node} {w : Value} (held : v.Holds m)
    (given : answer (t.convertValue line v) = some w) : isBlank w = false ∧ w.isNone = false := by
  cases held with
  | node =>
    rw [(convertValue_node t line m).1] at given
    obtain ⟨made, -, rfl⟩ := Option.map_eq_some_iff.mp given
    exact ⟨rfl, rfl⟩
  | @item items v m member held =>
    rw [(convertValue_list t line items).1] at given
    obtain ⟨made, converted, rfl⟩ := Option.map_eq_some_iff.mp given
    cases items with
    | nil => cases member
    | cons u rest =>
      rw [(convertItems_cons t line u rest).1] at converted
      obtain ⟨first, -, others⟩ := Option.bind_eq_some_iff.mp converted
      obtain ⟨tail, -, rfl⟩ := Option.map_eq_some_iff.mp others
      exact ⟨rfl, rfl⟩

theorem usual_made {n : Native.Node} (usual : route n = .usual)
    (quiet : messages ((standard r).convertNode n) = []) :
    ∃ made schema, answer ((standard r).convertNode n) = some made ∧
      messages ((standard r).convertFields n.line n.fields) = [] ∧
      Node.ofFields schema
        (tolerated schema (answer ((standard r).convertFields n.line n.fields))) = .ok made := by
  have fields := convertFields_appends (standard r) n.line n.fields
  have built := build_appends (standard r) n.kind (answer ((standard r).convertFields n.line n.fields)) n.line
  rw [convertNode_route, usual, follow, messages_bind fields built, List.append_eq_nil_iff] at quiet
  rw [convertNode_route, usual, follow, answer_bind fields built]
  generalize answer ((standard r).convertFields n.line n.fields) = converted at quiet ⊢
  cases outcome : answer ((standard r).build n.kind converted n.line) with
  | none => exact absurd quiet.2 (build_failed outcome)
  | some made =>
    obtain ⟨schema, -, ok⟩ := build_made.mp outcome
    exact ⟨made, schema, rfl, quiet.1, ok⟩

theorem given_value {schema : Schema} {fields : List (String × Value)} {made : Node} {name : String} {w : Value}
    (ok : Node.ofFields schema (tolerated schema fields) = .ok made)
    (given : Node.lastGiven? name (tolerated schema fields) = some w) (solid : w.isNone = false) :
    made.get? name = some w := by
  have slots := Node.setNamed_slot (Node.empty_sized schema) ok name
  rw [given] at slots
  obtain ⟨f, s, -, assigned, slot⟩ := slots
  rcases Field.assign_exact.mp assigned with ⟨-, isNone, -⟩ | ⟨-, rfl⟩
  · rw [solid] at isNone
    cases isNone
  · rw [Node.get?, slot]
    rfl

theorem field_stands {n : Native.Node} {made : Node} {name : String} {v : Native.Value} {m : Native.Node}
    {before after : List (String × Native.Value)} (usual : route n = .usual)
    (quiet : messages ((standard r).convertNode n) = [])
    (converted : answer ((standard r).convertNode n) = some made)
    (place : n.fields = before ++ (name, v) :: after) (held : v.Holds m)
    (last : ∀ f ∈ after, f.1 = name → Lost f.2) :
    Stands (standard r) n made name v ↔ ¬ Lost v := by
  obtain ⟨made', schema, same, quietFields, ok⟩ := usual_made r usual quiet
  cases converted.symm.trans same
  have quietAt : ∀ f ∈ n.fields, messages ((standard r).convertValue n.line f.2) = [] :=
    fun f member => convertFields_quiet _ n.line quietFields member
  have member : (name, v) ∈ n.fields := by simp [place]
  constructor
  · intro shape lost
    obtain ⟨w, given, -⟩ := shape
    rw [(value_lost r n.line v (quietAt _ member)).mpr lost] at given
    cases given
  · intro kept
    cases given : answer ((standard r).convertValue n.line v) with
    | none => exact absurd ((value_lost r n.line v (quietAt _ member)).mp given) kept
    | some w =>
      obtain ⟨solid, notNone⟩ := held_solid n.line held given
      refine ⟨w, given, given_value ok ?_ notNone⟩
      -- Behind this field only lost ones have its name, so it is the last that is given.
      have none_later : Node.lastGiven? name (tolerated schema (after.filterMap fun f =>
          (answer ((standard r).convertValue n.line f.2)).map (f.1, ·))) = none := by
        refine lastGiven_none fun f found same => ?_
        obtain ⟨g, later, shown⟩ := List.mem_filterMap.mp (List.mem_filter.mp found).1
        obtain ⟨u, shown, rfl⟩ := Option.map_eq_some_iff.mp shown
        have inside : g ∈ n.fields := by simp [place, later]
        rw [(value_lost r n.line g.2 (quietAt g inside)).mpr (last g later same)] at shown
        cases shown
      rw [convertFields_answer, place, List.filterMap_append, List.filterMap_cons_some (by rw [given]; rfl)]
      unfold tolerated at none_later ⊢
      rw [List.filter_append, List.filter_cons_of_pos (by simp [solid]), lastGiven_append, Node.lastGiven?,
        none_later, if_pos rfl]
      rfl

theorem features_made {n : Native.Node} {names : Option Native.Value} (imports : route n = .features names)
    (quiet : messages ((standard r).convertNode n) = []) (named : importNames names ≠ []) :
    ∃ made, answer ((standard r).convertNode n) = some made ∧
      made.get? "features" = some (.list ((importNames names).map .str)) := by
  have collected := features_appends n.line (importEntries names)
  have built := fun found => importBuild_appends (standard r) found n.line
  rw [convertNode_route, imports, follow, buildFeatures_eq, messages_bind collected (built _),
    List.append_eq_nil_iff] at quiet
  rw [convertNode_route, imports, follow, buildFeatures_eq, answer_bind collected (built _)]
  have found := features_quiet quiet.1
  change _ = (importNames names).map Value.str at found
  have some_found : ((importNames names).map Value.str).isEmpty = false := by
    simpa using named
  rw [found, some_found, if_neg Bool.false_ne_true] at quiet
  rw [found, some_found, if_neg Bool.false_ne_true]
  cases outcome : answer ((standard r).build "FutureImport"
      [("features", .list ((importNames names).map .str))] n.line) with
  | none => exact absurd quiet.2 (build_failed outcome)
  | some made =>
    obtain ⟨schema, -, ok⟩ := build_made.mp outcome
    refine ⟨made, rfl, given_value ok ?_ rfl⟩
    have solid : isBlank (.list ((importNames names).map .str)) = false := some_found
    simp [tolerated, solid, Node.lastGiven?]

theorem convert_ok {t : Translator} {n : Native.Node} {tree : Node} : (t.convert n).1 = .ok tree ↔
    messages (t.convertNode n) = [] ∧ answer (t.convertNode n) = some tree := by
  unfold convert messages answer
  rcases (t.convertNode n).run .empty with ⟨found, ⟨logged⟩⟩
  cases logged with
  | nil => cases found <;> simp [ErrorLog.result, ErrorLog.isEmpty]
  | cons m rest => simp [ErrorLog.result, ErrorLog.isEmpty]

theorem convert_wordless {t : Translator} {n : Native.Node} :
    (∃ e, (t.convert n).1 = .error e ∧ e.messages = []) ↔
      answer (t.convertNode n) = none ∧ messages (t.convertNode n) = [] := by
  unfold convert messages answer
  rcases (t.convertNode n).run .empty with ⟨found, ⟨logged⟩⟩
  cases logged with
  | nil => cases found <;> simp [ErrorLog.result, ErrorLog.isEmpty]
  | cons m rest => simp [ErrorLog.result, ErrorLog.isEmpty]

theorem quiet_run {n : Native.Node} (t : Translator) (quiet : messages (t.convertNode n) = []) :
    (t.convertNode n).run .empty = (answer (t.convertNode n), .empty) := by
  rw [convertNode_appends t n, quiet]
  rfl

-- A conversion adds messages to the log and nothing else; it gives nothing without adding one exactly for
-- the silent nodes, and a translation fails without a message exactly when its root is silent. In a tree
-- that translates, a field with nodes stands in the node made for its parent unless a silent node is lost in
-- it (of several fields of one name the last that is not lost counts), and an import keeps all of its
-- entries exactly when each of them has a name.
theorem silent_loss_exact (root : Native.Node) :
    (∀ n log, ∃ found added, ((standard r).convertNode n).run log = (found, ⟨log.messages ++ added⟩) ∧
      (found = none ∧ added = [] ↔ Silent n)) ∧
    ((∃ e, ((standard r).convert root).1 = .error e ∧ e.messages = []) ↔ Silent root) ∧
    ∀ tree, ((standard r).convert root).1 = .ok tree → ∀ n, Visits root n →
      (route n = .usual → ∃ made, ((standard r).convertNode n).run .empty = (some made, .empty) ∧
        ∀ before name v after, n.fields = before ++ (name, v) :: after → (∃ m, v.Holds m) →
          (∀ f ∈ after, f.1 = name → Lost f.2) → (Stands (standard r) n made name v ↔ ¬ Lost v)) ∧
      ∀ names, route n = .features names → ¬ Silent n →
        ∃ made kept, ((standard r).convertNode n).run .empty = (some made, .empty) ∧
          made.get? "features" = some (.list kept) ∧
          (kept.length = (importEntries names).length ↔
            ∀ entry ∈ importEntries names, (aliasName? entry).isSome) := by
  refine ⟨fun n log => ⟨_, _, convertNode_appends (standard r) n log, silent_exact r n⟩,
    convert_wordless.trans (silent_exact r root), ?_⟩
  intro tree ok n visited
  have quiet := visits_quiet r visited (convert_ok.mp ok).1
  have ran := quiet_run (standard r) quiet
  constructor
  · intro usual
    obtain ⟨made, -, converted, -, -⟩ := usual_made r usual quiet
    refine ⟨made, by rw [ran, converted], ?_⟩
    intro before name v after place shape last
    obtain ⟨m, held⟩ := shape
    exact field_stands r usual quiet converted place held last
  · intro names imports loud
    have named : importNames names ≠ [] := fun nothing => loud (.nameless imports nothing)
    obtain ⟨made, converted, features⟩ := features_made r imports quiet named
    refine ⟨made, _, by rw [ran, converted], features, ?_⟩
    rw [List.length_map]
    exact List.filterMap_length_eq_length

-- A language of blocks, and a block with an import that names nothing behind another statement.
def blockKinds : Registry :=
  ⟨0, [⟨"Module", none, [⟨"body", .object, .zeroOrMore⟩], 0, 0⟩, ⟨"Pass", none, [], 0, 0⟩]⟩

def namelessImport : Native.Node :=
  .mk "ImportFrom" (some 1) [("module", .str futureModule), ("names", .list [])]

def blockBody : Native.Value := .list [.node (.mk "Pass" (some 2) []), .node namelessImport]

def blockWithImport : Native.Node := .mk "Module" none [("body", blockBody)]

theorem namelessImport_lost : Lost blockBody :=
  ⟨namelessImport, .item (List.mem_cons_of_mem _ (List.mem_cons_self ..)) (.node _), .nameless rfl rfl⟩

-- The whole block is lost with the import, and nobody is told.
theorem block_lost_with_import :
    ∃ made, ((standard blockKinds).convertNode blockWithImport).run .empty = (some made, .empty) ∧
      ¬ Stands (standard blockKinds) blockWithImport made "body" blockBody := by
  obtain ⟨made, ran, fields⟩ :=
    ((silent_loss_exact blockKinds blockWithImport).2.2 _ rfl blockWithImport (.self _)).1 rfl
  refine ⟨made, ran, fun stands => ?_⟩
  have held : ∃ m, blockBody.Holds m := ⟨_, .item (List.mem_cons_self ..) (.node _)⟩
  exact (fields [] "body" blockBody [] rfl held (fun f none => by cases none)).mp stands namelessImport_lost

theorem nameless_import_unnoticed :
    (∃ e, ((standard coreRegistry).convert namelessImport).1 = .error e ∧ e.messages = []) ∧
      ∃ tree, ((standard blockKinds).convert blockWithImport).1 = .ok tree ∧ tree.get? "body" = none :=
  ⟨⟨⟨[], some "ImportFrom produced no node"⟩, rfl, rfl⟩, _, rfl, rfl⟩

end Translator

end TreeLowering
