import TreeLowering.Proofs.CoreSchemas
import TreeLowering.Rewrite.Desugarer

namespace TreeLowering

namespace Rule

variable {rule : Rule} {n m : Node}

-- The answer of a matcher that cannot fail.
def accepts (rule : Rule) (n : Node) : Bool :=
  match rule.matcher.testNode n with
  | .ok b => b
  | .error _ => false

theorem ofKind_test (kind : String) (n : Node) :
    (Matcher.ofKind kind).testNode n = .ok (n.isA kind) := by
  change (if n.isA kind then Matcher.testAttrs [] n else .ok false) = _
  cases n.isA kind <;> rfl

theorem forLoop_test (n : Node) : forLoop.matcher.testNode n = .ok (n.isA "For") := ofKind_test "For" n

theorem assertion_test (n : Node) : assertion.matcher.testNode n = .ok (n.isA "Assert") :=
  ofKind_test "Assert" n

theorem augAssign_test (n : Node) : augAssign.matcher.testNode n =
    .ok (n.isA "AugAssign" && (n.childSchema? "target").any fun s => s.isSubkindOf "Name") := by
  change (if n.isA "AugAssign" then Matcher.testAttrs [("target", .ofKind "Name")] n else .ok false) = _
  cases n.isA "AugAssign" with
  | false => rfl
  | true =>
    rw [if_pos rfl, Bool.true_and, Node.childSchema?, Node.nodeAt?, Matcher.testAttrs]
    cases n.slot? "target" with
    | none => rfl
    | some s =>
      cases s with
      | value v =>
        cases v with
        | node t =>
          change ((Matcher.ofKind "Name").testNode t >>= _) = Except.ok (t.isA "Name")
          rw [ofKind_test]
          cases t.isA "Name" <;> rfl
        | _ => rfl
      | _ => rfl

theorem standard_cases (builtin : rule ∈ standard) : rule = forLoop ∨ rule = augAssign ∨ rule = assertion := by
  simpa [standard] using builtin

theorem standard_test (builtin : rule ∈ standard) (n : Node) :
    rule.matcher.testNode n = .ok (rule.accepts n) := by
  unfold accepts
  rcases standard_cases builtin with rfl | rfl | rfl
  · rw [forLoop_test]
  · rw [augAssign_test]
  · rw [assertion_test]

theorem accepts_alike (builtin : rule ∈ standard) (alike : n.Alike m) : rule.accepts m = rule.accepts n := by
  unfold accepts
  rcases standard_cases builtin with rfl | rfl | rfl
  · rw [forLoop_test, forLoop_test, Node.isA, Node.isA, alike.schema]
  · rw [augAssign_test, augAssign_test, Node.isA, Node.isA, alike.schema, alike.children]
  · rw [assertion_test, assertion_test, Node.isA, Node.isA, alike.schema]

end Rule

namespace Desugarer

variable {d : Desugarer} {n m : Node}

def Builtin (d : Desugarer) : Prop := ∀ rule ∈ d.rules, rule ∈ Rule.standard

theorem push_builtin {rule : Rule} (builtin : d.Builtin) (standard : rule ∈ Rule.standard) :
    (d.push rule).Builtin := by
  intro other member
  rcases List.mem_append.mp member with before | new
  · exact builtin other before
  · rw [List.mem_singleton.mp new]
    exact standard

theorem ofNames_builtin {r : Registry} {names : List String}
    (known : ∀ name ∈ names, (Rule.ofName? name).isSome) :
    ∃ d, ofNames r names = .ok d ∧ d.Builtin ∧ d.registry = r := by
  have builtin : (empty r).Builtin := fun rule member => by cases member
  have registry : (empty r).registry = r := rfl
  unfold ofNames
  -- Any rules may stand before the ones that are added.
  generalize empty r = start at builtin registry ⊢
  induction names generalizing start with
  | nil => exact ⟨start, rfl, builtin, registry⟩
  | cons name rest ih =>
    obtain ⟨rule, found⟩ := Option.isSome_iff_exists.mp (known name (List.mem_cons_self ..))
    have pushed := push_builtin builtin (List.mem_of_find?_eq_some found)
    rw [List.foldlM_cons, found]
    exact ih (fun name member => known name (List.mem_cons_of_mem _ member)) (start.push rule) pushed registry

theorem ofNames_known {r : Registry} {names : List String} (made : ofNames r names = .ok d) :
    ∀ name ∈ names, (Rule.ofName? name).isSome := by
  unfold ofNames at made
  generalize empty r = start at made
  induction names generalizing start with
  | nil => exact List.forall_mem_nil _
  | cons name rest ih =>
    rw [List.foldlM_cons] at made
    cases found : Rule.ofName? name with
    | none =>
      rw [found] at made
      cases made
    | some rule =>
      rw [found] at made
      rw [List.forall_mem_cons, found]
      exact ⟨rfl, ih (start.push rule) made⟩

theorem standard_builtin (r : Registry) : (standard r).Builtin := by
  intro rule member
  exact member

theorem standard_registry (r : Registry) : (standard r).registry = r := rfl

theorem candidate_member {rule : Rule} (candidate : rule ∈ d.candidates n) : rule ∈ d.rules := by
  obtain ⟨index, -, found⟩ := List.mem_filterMap.mp candidate
  exact List.mem_of_getElem? found

theorem firstMatch_find {rules : List Rule} (builtin : ∀ rule ∈ rules, rule ∈ Rule.standard) :
    firstMatch? n rules = .ok (rules.find? fun rule => rule.accepts n) := by
  induction rules with
  | nil => rfl
  | cons rule rest ih =>
    rw [List.forall_mem_cons] at builtin
    rw [firstMatch?, Rule.standard_test builtin.1, List.find?_cons]
    change (if rule.accepts n then _ else _) = _
    cases rule.accepts n with
    | true => rfl
    | false => exact ih builtin.2

theorem findMatch_find (builtin : d.Builtin) (n : Node) :
    d.findMatch? n = .ok ((d.candidates n).find? fun rule => rule.accepts n) :=
  firstMatch_find fun rule candidate => builtin rule (candidate_member candidate)

theorem findMatch_alike (builtin : d.Builtin) (alike : n.Alike m) : d.findMatch? m = d.findMatch? n := by
  rw [findMatch_find builtin, findMatch_find builtin]
  have sameCandidates : d.candidates m = d.candidates n := by
    rw [candidates, candidates, alike.schema]
  have sameAnswers : ∀ rules : List Rule, (∀ rule ∈ rules, rule ∈ Rule.standard) →
      (rules.find? fun rule => rule.accepts m) = rules.find? fun rule => rule.accepts n := by
    intro rules
    induction rules with
    | nil => exact fun _ => rfl
    | cons rule rest ih =>
      intro standard
      rw [List.forall_mem_cons] at standard
      rw [List.find?_cons, List.find?_cons, Rule.accepts_alike standard.1 alike, ih standard.2]
  rw [sameCandidates, sameAnswers _ fun rule candidate => builtin rule (candidate_member candidate)]

-- The rule that applies to a node of a well-typed tree goes by the kind.
theorem findMatch_rule {rule : Rule} (builtin : d.Builtin) (typed : n.WellTyped coreRegistry)
    (found : d.findMatch? n = .ok (some rule)) :
    (rule = .forLoop ∧ n.kind = "For") ∨ (rule = .assertion ∧ n.kind = "Assert") ∨
      (rule = .augAssign ∧ n.kind = "AugAssign" ∧ ∃ t, n.nodeAt? "target" = some t ∧ t.kind = "Name") := by
  rw [findMatch_find builtin, Except.ok.injEq] at found
  have accepted : rule.accepts n = true := by
    simpa using List.find?_some found
  have standard := builtin rule (candidate_member (List.mem_of_find?_eq_some found))
  unfold Rule.accepts at accepted
  rcases Rule.standard_cases standard with rfl | rfl | rfl
  · rw [Rule.forLoop_test] at accepted
    exact .inl ⟨rfl, (core_isA (by simp [Core.replaced]) typed).mp accepted⟩
  · rw [Rule.augAssign_test] at accepted
    dsimp only at accepted
    rw [Bool.and_eq_true, Option.any_eq_true] at accepted
    obtain ⟨isAug, schema, same, isName⟩ := accepted
    obtain ⟨t, target, rfl⟩ := Option.map_eq_some_iff.mp same
    have typedTarget := Node.child_typed typed (Node.nodeAt_child target)
    exact .inr (.inr ⟨rfl, (core_isA (by simp [Core.replaced]) typed).mp isAug, t, target,
      (core_isA (by simp) typedTarget).mp isName⟩)
  · rw [Rule.assertion_test] at accepted
    exact .inr (.inl ⟨rfl, (core_isA (by simp [Core.replaced]) typed).mp accepted⟩)

theorem findMatch_none (builtin : d.Builtin) (typed : n.WellTyped coreRegistry)
    (other : n.kind ∉ Core.replaced) : d.findMatch? n = .ok none := by
  cases found : (d.candidates n).find? fun rule => rule.accepts n with
  | none => rw [findMatch_find builtin, found]
  | some rule =>
    have matched : d.findMatch? n = .ok (some rule) := by rw [findMatch_find builtin, found]
    exfalso
    rcases findMatch_rule builtin typed matched with ⟨-, kind⟩ | ⟨-, kind⟩ | ⟨-, kind, -⟩ <;>
      exact other (by simp [kind, Core.replaced])

end Desugarer

end TreeLowering
