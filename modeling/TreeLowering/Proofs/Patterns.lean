import TreeLowering.Proofs.Magnitudes
import TreeLowering.Rewrite.Matcher

namespace TreeLowering

-- The value of a field as a matcher reads it; what is unset or undeclared has none.
def Node.attribute? (n : Node) (name : String) : Option Value :=
  match n.slot? name with
  | none | some .unset => none
  | some .explicitNone => some .none
  | some (.value v) => some v

-- The values that a primitive agrees with: those of its own type that equal it, and numbers of the other
-- type that denote the same.
inductive Agrees : Value → Value → Prop where
  | none : Agrees .none .none
  | bool (b : Bool) : Agrees (.bool b) (.bool b)
  | int (n : Int64) : Agrees (.int n) (.int n)
  | float {x y : Binary64} (same : x.equals y = true) : Agrees (.float x) (.float y)
  | complex {a b : Complex} (same : a.equals b = true) : Agrees (.complex a) (.complex b)
  | str (s : String) : Agrees (.str s) (.str s)
  | bytes (bs : List UInt8) : Agrees (.bytes bs) (.bytes bs)
  | whole {n : Int64} {x : Binary64} (same : x.toInt? = some n.toInt) : Agrees (.int n) (.float x)
  | exact {n : Int64} {x : Binary64} (same : x.toInt? = some n.toInt) : Agrees (.float x) (.int n)

namespace Matcher

theorem compare_true {expected v : Value} : compare expected v = .ok true ↔ Agrees expected v := by
  constructor
  · intro same
    cases expected <;> cases v <;> simp [compare, Value.equals, Binary64.equalsInt_toInt?] at same <;> subst_vars <;>
      constructor <;> assumption
  · intro agreed
    cases agreed <;> simp_all [compare, Value.equals, Binary64.equalsInt_toInt?]

theorem compare_constant {expected : Value} (constant : expected.isConstant = true) (v : Value) :
    ∃ b, compare expected v = .ok b := by
  cases expected with
  | list | tuple | node => cases constant
  | _ => cases v <;> exact ⟨_, rfl⟩

theorem compare_other {expected : Value} (other : expected.isConstant = false) (v : Value) :
    compare expected v = .error (.unsupportedPattern expected.typeName) := by
  cases expected <;> cases other <;> rfl

instance (expected v : Value) : Decidable (Agrees expected v) :=
  match same : compare expected v with
  | .ok true => .isTrue (compare_true.mp same)
  | .ok false => .isFalse fun agreed => by cases same.symm.trans (compare_true.mpr agreed)
  | .error _ => .isFalse fun agreed => by cases same.symm.trans (compare_true.mpr agreed)

-- The values that a matcher compares against.
mutual
def patterns : Matcher → List Value
  | equals expected => [expected]
  | kind _ attrs => patternsAll attrs
  | predicate _ => []
termination_by structural m => m

def patternsAll : List (String × Matcher) → List Value
  | [] => []
  | (_, m) :: rest => m.patterns ++ patternsAll rest
termination_by structural attrs => attrs
end

def Supported (m : Matcher) : Prop := ∀ p ∈ m.patterns, p.isConstant = true

-- The values that a matcher is for. All named attributes must have a value that is accepted.
inductive Accepts : Matcher → Value → Prop where
  | equals {expected v : Value} (agrees : Agrees expected v) : Accepts (.equals expected) v
  | kind {k : String} {attrs : List (String × Matcher)} {n : Node} (isKind : n.isA k = true)
      (set : ∀ name m, (name, m) ∈ attrs → (n.attribute? name).isSome = true)
      (each : ∀ name m v, (name, m) ∈ attrs → n.attribute? name = some v → Accepts m v) :
      Accepts (.kind k attrs) (.node n)
  | predicate {holds : Value → Bool} {v : Value} (held : holds v = true) : Accepts (.predicate holds) v

-- What speaks against a value: it differs from what is asked for, or a pattern cannot be compared against.
inductive Finding where
  | mismatch
  | unsupported (pattern : Value)

def Finding.verdict : Option Finding → Except MatchError Bool
  | none => .ok true
  | some .mismatch => .ok false
  | some (.unsupported pattern) => .error (.unsupportedPattern pattern.typeName)

-- All findings, depth first and in the order of the attributes. What is below a node of another kind or an
-- attribute without a value is not reached.
mutual
def findings : Matcher → Value → List Finding
  | equals expected, v =>
    if expected.isConstant then if Agrees expected v then [] else [.mismatch] else [.unsupported expected]
  | kind k attrs, v =>
    match v with
    | .node n => if n.isA k then findingsAll attrs n else [.mismatch]
    | _ => [.mismatch]
  | predicate holds, v => if holds v then [] else [.mismatch]
termination_by structural m => m

def findingsAll : List (String × Matcher) → Node → List Finding
  | [], _ => []
  | (name, m) :: rest, n =>
    (match n.attribute? name with
      | none => [.mismatch]
      | some v => m.findings v) ++ findingsAll rest n
termination_by structural attrs => attrs
end

theorem attrs_induct {motive : Matcher → Prop} (equals : ∀ expected, motive (.equals expected))
    (kind : ∀ k attrs, (∀ name m, (name, m) ∈ attrs → motive m) → motive (.kind k attrs))
    (predicate : ∀ holds, motive (.predicate holds)) (m : Matcher) : motive m :=
  match m with
  | .equals expected => equals expected
  | .predicate holds => predicate holds
  | .kind k attrs => kind k attrs fun name m inside =>
    have : sizeOf m < 1 + sizeOf k + sizeOf attrs := by
      have part := List.sizeOf_lt_of_mem inside
      simp only [Prod.mk.sizeOf_spec] at part
      omega
    attrs_induct equals kind predicate m
termination_by sizeOf m

theorem mem_patternsAll {attrs : List (String × Matcher)} {p : Value} :
    p ∈ patternsAll attrs ↔ ∃ name m, (name, m) ∈ attrs ∧ p ∈ m.patterns := by
  induction attrs with
  | nil => simp [patternsAll]
  | cons a rest ih =>
    obtain ⟨name, m⟩ := a
    simp only [patternsAll, List.mem_append, ih, List.mem_cons, Prod.mk.injEq]
    constructor
    · rintro (here | ⟨name', m', inside, there⟩)
      · exact ⟨name, m, .inl ⟨rfl, rfl⟩, here⟩
      · exact ⟨name', m', .inr inside, there⟩
    · rintro ⟨name', m', ⟨rfl, rfl⟩ | inside, there⟩
      · exact .inl there
      · exact .inr ⟨name', m', inside, there⟩

theorem accepts_equals {expected v : Value} : (equals expected).Accepts v ↔ Agrees expected v := by
  constructor
  · intro accepts
    cases accepts with
    | equals agrees => exact agrees
  · exact .equals

theorem accepts_predicate {holds : Value → Bool} {v : Value} :
    (predicate holds).Accepts v ↔ holds v = true := by
  constructor
  · intro accepts
    cases accepts with
    | predicate held => exact held
  · exact .predicate

theorem accepts_kind {k : String} {attrs : List (String × Matcher)} {v : Value} :
    (kind k attrs).Accepts v ↔ ∃ n, v = .node n ∧ n.isA k = true ∧
      ∀ name m, (name, m) ∈ attrs → ∃ w, n.attribute? name = some w ∧ m.Accepts w := by
  constructor
  · intro accepts
    cases accepts with
    | @kind _ _ n isKind set each =>
      refine ⟨n, rfl, isKind, fun name m inside => ?_⟩
      obtain ⟨w, read⟩ := Option.isSome_iff_exists.mp (set name m inside)
      exact ⟨w, read, each name m w inside read⟩
  · rintro ⟨n, rfl, isKind, all⟩
    refine .kind isKind (fun name m inside => ?_) fun name m v inside read => ?_
    · obtain ⟨w, read, -⟩ := all name m inside
      simp [read]
    · obtain ⟨w, same, accepts⟩ := all name m inside
      cases read.symm.trans same
      exact accepts

theorem Finding.verdict_append (first rest : List Finding) :
    verdict (first ++ rest).head? = (do if ← verdict first.head? then verdict rest.head? else return false) := by
  cases first with
  | nil => rfl
  | cons f _ => cases f <;> rfl

theorem testAttrs_cons (name : String) (m : Matcher) (rest : List (String × Matcher)) (n : Node) :
    testAttrs ((name, m) :: rest) n = (do
      let ok ← match n.attribute? name with
        | none => pure false
        | some v => m.test v
      if ok then testAttrs rest n else return false) := by
  rw [testAttrs, Node.attribute?]
  cases n.slot? name with
  | none => rfl
  | some s => cases s <;> rfl

theorem testAttrs_findings {attrs : List (String × Matcher)}
    (each : ∀ name m, (name, m) ∈ attrs → ∀ v, m.test v = Finding.verdict (m.findings v).head?) (n : Node) :
    testAttrs attrs n = Finding.verdict (findingsAll attrs n).head? := by
  induction attrs with
  | nil => rfl
  | cons a rest ih =>
    obtain ⟨name, m⟩ := a
    rw [testAttrs_cons, findingsAll, Finding.verdict_append,
      ih fun name m inside => each name m (List.mem_cons_of_mem _ inside)]
    cases n.attribute? name with
    | none => rfl
    | some v => simp only [each name m (List.mem_cons_self ..) v]

theorem test_findings (m : Matcher) (v : Value) : m.test v = Finding.verdict (m.findings v).head? := by
  induction m using attrs_induct generalizing v with
  | equals expected =>
    cases constant : expected.isConstant with
    | false => simp [test, findings, compare_other constant, constant, Finding.verdict]
    | true =>
      obtain ⟨b, same⟩ := compare_constant constant v
      have agrees : compare expected v = .ok true ↔ Agrees expected v := compare_true
      rw [same] at agrees
      cases b <;> simp_all [test, findings, Finding.verdict]
  | kind k attrs ih =>
    cases v with
    | node n =>
      rw [test, findings, testAttrs_findings ih]
      split <;> rfl
    | _ => rfl
  | predicate holds =>
    rw [test, findings]
    cases holds v <;> rfl

theorem findingsAll_nil {attrs : List (String × Matcher)} {n : Node} : findingsAll attrs n = [] ↔
    ∀ name m, (name, m) ∈ attrs → ∃ v, n.attribute? name = some v ∧ m.findings v = [] := by
  induction attrs with
  | nil => simp [findingsAll]
  | cons a rest ih =>
    obtain ⟨name, m⟩ := a
    have here : (match n.attribute? name with
        | none => [Finding.mismatch]
        | some v => m.findings v) = [] ↔ ∃ v, n.attribute? name = some v ∧ m.findings v = [] := by
      cases n.attribute? name <;> simp
    rw [findingsAll, List.append_eq_nil_iff, here, ih]
    constructor
    · rintro ⟨first, others⟩ other m' inside
      rcases List.mem_cons.mp inside with same | inside
      · cases same
        exact first
      · exact others other m' inside
    · intro all
      exact ⟨all name m (List.mem_cons_self ..),
        fun other m' inside => all other m' (List.mem_cons_of_mem _ inside)⟩

theorem findings_nil {m : Matcher} {v : Value} : m.findings v = [] ↔ m.Accepts v := by
  induction m using attrs_induct generalizing v with
  | equals expected =>
    rw [findings, accepts_equals]
    cases constant : expected.isConstant with
    | true => simp
    | false =>
      have apart : ¬ Agrees expected v := fun agrees => by
        cases (compare_other constant v).symm.trans (compare_true.mpr agrees)
      simpa using apart
  | kind k attrs ih =>
    have all : ∀ n, findingsAll attrs n = [] ↔
        ∀ name m, (name, m) ∈ attrs → ∃ w, n.attribute? name = some w ∧ m.Accepts w := by
      intro n
      rw [findingsAll_nil]
      exact forall₃_congr fun name m inside => by simp only [ih name m inside]
    rw [accepts_kind]
    cases v with
    | node n => cases isKind : n.isA k <;> simp [findings, isKind, all]
    | _ => simp [findings]
  | predicate holds =>
    rw [findings, accepts_predicate]
    cases holds v <;> simp

theorem test_true {m : Matcher} {v : Value} : m.test v = .ok true ↔ m.Accepts v := by
  rw [test_findings, ← findings_nil]
  cases m.findings v with
  | nil => simp [Finding.verdict]
  | cons first _ => cases first <;> simp [Finding.verdict]

theorem Accepts.supported {m : Matcher} {v : Value} (accepts : m.Accepts v) : m.Supported := by
  induction accepts with
  | equals agrees =>
    intro p inside
    rw [patterns, List.mem_singleton] at inside
    subst inside
    cases agrees <;> rfl
  | kind _ set _ ih =>
    intro p inside
    rw [patterns, mem_patternsAll] at inside
    obtain ⟨name, m, attr, held⟩ := inside
    obtain ⟨v, read⟩ := Option.isSome_iff_exists.mp (set name m attr)
    exact ih name m v attr read p held
  | predicate => exact nofun

theorem findingsAll_unsupported {attrs : List (String × Matcher)} {n : Node} {p : Value}
    (found : .unsupported p ∈ findingsAll attrs n) :
    ∃ name m v, (name, m) ∈ attrs ∧ .unsupported p ∈ m.findings v := by
  induction attrs with
  | nil => cases found
  | cons a rest ih =>
    obtain ⟨name, m⟩ := a
    rw [findingsAll, List.mem_append] at found
    rcases found with here | there
    · cases read : n.attribute? name with
      | none => simp [read] at here
      | some v =>
        rw [read] at here
        exact ⟨name, m, v, List.mem_cons_self .., here⟩
    · obtain ⟨other, m', v, inside, held⟩ := ih there
      exact ⟨other, m', v, List.mem_cons_of_mem _ inside, held⟩

theorem unsupported_held {m : Matcher} {v p : Value} (found : .unsupported p ∈ m.findings v) :
    p ∈ m.patterns ∧ p.isConstant = false := by
  induction m using attrs_induct generalizing v with
  | equals expected =>
    rw [findings] at found
    split at found
    · split at found <;> simp at found
    · next other =>
      cases List.mem_singleton.mp found
      simpa [patterns] using other
  | kind k attrs ih =>
    cases v with
    | node n =>
      rw [findings] at found
      split at found
      · obtain ⟨name, m, v, inside, held⟩ := findingsAll_unsupported found
        obtain ⟨pattern, other⟩ := ih name m inside held
        exact ⟨mem_patternsAll.mpr ⟨name, m, inside, pattern⟩, other⟩
      · simp at found
    | _ => simp [findings] at found
  | predicate holds =>
    rw [findings] at found
    split at found <;> simp at found

theorem unsupported_first {m : Matcher} {v p : Value} {rest : List Finding}
    (found : m.findings v = .unsupported p :: rest) : p ∈ m.patterns ∧ p.isConstant = false := by
  apply unsupported_held (v := v)
  simp [found]

theorem Supported.answers {m : Matcher} (supported : m.Supported) (v : Value) :
    ∃ b, m.test v = .ok b ∧ (b = true ↔ m.Accepts v) := by
  have answer : ∃ b, m.test v = .ok b := by
    rw [test_findings]
    cases found : m.findings v with
    | nil => exact ⟨true, rfl⟩
    | cons first rest =>
      cases first with
      | mismatch => exact ⟨false, rfl⟩
      | unsupported p =>
        obtain ⟨inside, other⟩ := unsupported_first found
        simp [supported p inside] at other
  obtain ⟨b, answer⟩ := answer
  refine ⟨b, answer, ?_⟩
  simp [← test_true, answer]

-- All that the first matcher asks for the second one asks for too, at any depth. Two matchers of which each
-- is milder than the other differ in the order and the repetition of attributes only.
inductive Milder : Matcher → Matcher → Prop where
  | refl (m : Matcher) : Milder m m
  | attrs (k : String) {fewer more : List (String × Matcher)} (all : ∀ attr ∈ fewer, attr ∈ more) :
      Milder (.kind k fewer) (.kind k more)
  | inside (k name : String) (before after : List (String × Matcher)) {m m' : Matcher} :
      Milder m m' → Milder (.kind k (before ++ (name, m) :: after)) (.kind k (before ++ (name, m') :: after))
  | trans {m m' m'' : Matcher} : Milder m m' → Milder m' m'' → Milder m m''

theorem milder_attr (m : Matcher) (name : String) (demand : Matcher) : m.Milder (m.attr name demand) := by
  cases m with
  | kind k attrs => exact .attrs k fun a inside => List.mem_append_left _ inside
  | _ => exact .refl _

theorem Milder.patterns {m m' : Matcher} (milder : m.Milder m') {p : Value} :
    p ∈ m.patterns → p ∈ m'.patterns := by
  induction milder with
  | refl => exact id
  | attrs k all =>
    simp only [Matcher.patterns, mem_patternsAll]
    rintro ⟨name, m, inside, held⟩
    exact ⟨name, m, all _ inside, held⟩
  | inside k name before after _ ih =>
    simp only [Matcher.patterns, mem_patternsAll, List.mem_append, List.mem_cons, Prod.mk.injEq]
    rintro ⟨other, m₀, early | ⟨rfl, rfl⟩ | late, held⟩
    · exact ⟨other, m₀, .inl early, held⟩
    · exact ⟨other, _, .inr (.inl ⟨rfl, rfl⟩), ih held⟩
    · exact ⟨other, m₀, .inr (.inr late), held⟩
  | trans _ _ first second => exact fun held => second (first held)

theorem Milder.accepts {m m' : Matcher} (milder : m.Milder m') {v : Value} : m'.Accepts v → m.Accepts v := by
  induction milder generalizing v with
  | refl => exact id
  | attrs k all =>
    simp only [accepts_kind]
    rintro ⟨n, same, isKind, each⟩
    exact ⟨n, same, isKind, fun name m inside => each name m (all _ inside)⟩
  | inside k name before after _ ih =>
    simp only [accepts_kind, List.mem_append, List.mem_cons, Prod.mk.injEq]
    rintro ⟨n, same, isKind, each⟩
    refine ⟨n, same, isKind, fun other m₀ inside => ?_⟩
    rcases inside with early | ⟨rfl, rfl⟩ | late
    · exact each other m₀ (.inl early)
    · obtain ⟨w, read, accepts⟩ := each other _ (.inr (.inl ⟨rfl, rfl⟩))
      exact ⟨w, read, ih accepts⟩
    · exact each other m₀ (.inr (.inr late))
  | trans _ _ first second => exact fun accepts => first (second accepts)

theorem Milder.supported {m m' : Matcher} (milder : m.Milder m') (supported : m'.Supported) : m.Supported :=
  fun p inside => supported p (milder.patterns inside)

theorem Milder.refuses {m m' : Matcher} (milder : m.Milder m') (supported : m'.Supported) {v : Value}
    (refused : m.test v = .ok false) : m'.test v = .ok false := by
  obtain ⟨b, answer, accepts⟩ := supported.answers v
  cases b with
  | false => exact answer
  | true =>
    have accepted := test_true.mpr (milder.accepts (accepts.mp rfl))
    simp [refused] at accepted

theorem test_means (m : Matcher) (v : Value) :
    (m.Supported → ∃ b, m.test v = .ok b ∧ (b = true ↔ m.Accepts v)) ∧
    (∀ m', m.Supported → m.Milder m' → m'.Milder m → m'.test v = m.test v) ∧
    (∀ name demand, m.Milder (m.attr name demand)) ∧
    (∀ m', m'.Supported → m.Milder m' → m.test v = .ok false → m'.test v = .ok false) ∧
    (¬ m.Supported → m.test v ≠ .ok true ∧ ∃ first, (m.findings v).head? = some first ∧
      (first = .mismatch ∧ m.test v = .ok false ∨
        ∃ p ∈ m.patterns, p.isConstant = false ∧ first = .unsupported p ∧
          m.test v = .error (.unsupportedPattern p.typeName))) := by
  refine ⟨fun supported => supported.answers v, fun m' supported less more => ?_, m.milder_attr,
    fun m' supported less refused => less.refuses supported refused, fun unsupported => ?_⟩
  · obtain ⟨b, answer, accepts⟩ := supported.answers v
    obtain ⟨b', answer', accepts'⟩ := (more.supported supported).answers v
    have alike : b' = true ↔ b = true := by
      rw [accepts, accepts']
      exact ⟨less.accepts, more.accepts⟩
    rw [answer, answer', Bool.eq_iff_iff.mpr alike]
  · have refused : m.test v ≠ .ok true := fun accepted => unsupported (test_true.mp accepted).supported
    refine ⟨refused, ?_⟩
    rw [test_findings] at refused ⊢
    cases found : m.findings v with
    | nil => simp [found, Finding.verdict] at refused
    | cons first rest =>
      refine ⟨first, rfl, ?_⟩
      cases first with
      | mismatch => exact .inl ⟨rfl, rfl⟩
      | unsupported p =>
        obtain ⟨inside, other⟩ := unsupported_first found
        exact .inr ⟨p, inside, other, rfl, rfl⟩

def named : Node :=
  .mk ⟨"Expr", none, [⟨"value", .kind "Name", .required⟩], 0, 0⟩
    [.value (.node (.mk ⟨"Name", none, [⟨"id", .identifier, .required⟩, ⟨"ctx", .object, .optional⟩], 0, 0⟩
      [.value (.str "x"), .explicitNone]))]

def byParts : Matcher :=
  .kind "Expr" [("value", .kind "Name" [("id", .equals (.str "x")), ("ctx", .equals .none)])]

def byNode (id : String) : Matcher :=
  .kind "Expr" [("value", .kind "Name" [("id", .equals (.str id))]), ("value", .equals (.node named))]

theorem named_tested : byParts.Supported ∧ (∃ b, byParts.test (.node named) = .ok b ∧
      (b = true ↔ byParts.Accepts (.node named))) ∧
    byParts.test (.node named) = .ok true ∧
    (byParts.attr "ctx" (.equals .none)).test (.node named) = .ok false ∧
    ¬ (byNode "x").Supported ∧ (byNode "x").test (.node named) ≠ .ok true ∧
    (byNode "x").test (.node named) = .error (.unsupportedPattern "Expr") ∧
    (byNode "y").test (.node named) = .ok false := by
  have supported : byParts.Supported := by
    simp [Supported, byParts, patterns, patternsAll, Value.isConstant]
  have unsupported : ¬ (byNode "x").Supported := by
    simp [Supported, byNode, patterns, patternsAll, Value.isConstant]
  exact ⟨supported, (test_means byParts (.node named)).1 supported, rfl, rfl, unsupported,
    ((test_means (byNode "x") (.node named)).2.2.2.2 unsupported).1, rfl, rfl⟩

end Matcher

end TreeLowering
