import TreeLowering.Proofs.Matching

namespace TreeLowering

namespace RuleTable

-- The positions under which a rule can be found.
def listed (t : RuleTable) : Option String → List Nat
  | some kind => t.under kind
  | none => t.unkeyed

theorem listed_add (t : RuleTable) (kind other : Option String) (index : Nat) :
    (t.add kind index).listed other = if kind = other then t.listed kind ++ [index] else t.listed other := by
  cases kind with
  | none => cases other <;> rfl
  | some kind =>
    cases other with
    | none => rfl
    | some other =>
      simp only [listed, add, under, Keyed.lookup?_insert, Option.some.injEq]
      split <;> rfl

theorem listed_kept {t : RuleTable} {kind other : Option String} {index place : Nat}
    (found : place ∈ t.listed other) : place ∈ (t.add kind index).listed other := by
  rw [listed_add]
  split
  next same =>
    subst same
    exact List.mem_append_left _ found
  next => exact found

theorem listed_new (t : RuleTable) (kind : Option String) (index : Nat) :
    index ∈ (t.add kind index).listed kind := by
  rw [listed_add, if_pos rfl]
  exact List.mem_append_right _ (List.mem_singleton_self _)

theorem candidate_listed {t : RuleTable} {schema : Schema} {key : Option String} {index : Nat}
    (found : index ∈ t.listed key) (covers : ∀ kind, key = some kind → schema.isSubkindOf kind = true) :
    index ∈ t.candidates schema := by
  unfold candidates
  rw [List.mem_mergeSort, List.mem_append]
  cases key with
  | none => exact .inl found
  | some kind =>
    obtain ⟨s, member, same⟩ := List.any_eq_true.mp (covers kind rfl)
    rw [beq_iff_eq] at same
    subst same
    exact .inr (List.mem_flatMap.mpr ⟨s, member, found⟩)

end RuleTable

namespace Desugarer

variable {d : Desugarer} {rule : Rule} {n : Node} {r : Registry} {names : List String}

-- Every rule is listed in the table under the kind of its matcher.
def Indexed (d : Desugarer) : Prop :=
  ∀ (index : Nat) rule, d.rules[index]? = some rule → index ∈ d.table.listed rule.matcher.kind?

theorem empty_indexed (r : Registry) : (empty r).Indexed := by
  intro index rule found
  cases found

theorem push_indexed (indexed : d.Indexed) (rule : Rule) : (d.push rule).Indexed := by
  intro index other found
  change (d.rules ++ [rule])[index]? = some other at found
  change index ∈ (d.table.add rule.matcher.kind? d.rules.length).listed other.matcher.kind?
  by_cases before : index < d.rules.length
  · rw [List.getElem?_append_left before] at found
    exact RuleTable.listed_kept (indexed index other found)
  · obtain ⟨bound, -⟩ := List.getElem?_eq_some_iff.mp found
    have last : index = d.rules.length := by
      rw [List.length_append, List.length_singleton] at bound
      omega
    subst last
    rw [List.getElem?_concat_length, Option.some.injEq] at found
    subst found
    exact RuleTable.listed_new ..

theorem extend_indexed (indexed : d.Indexed) (rules : List Rule) : (d.extend rules).Indexed := by
  unfold extend
  induction rules generalizing d with
  | nil => exact indexed
  | cons rule rest ih => exact ih (push_indexed indexed rule)

theorem standard_indexed (r : Registry) : (standard r).Indexed := extend_indexed (empty_indexed r) _

theorem indexed_candidate (indexed : d.Indexed) (member : rule ∈ d.rules)
    (covers : ∀ kind, rule.matcher.kind? = some kind → n.isA kind = true) : rule ∈ d.candidates n := by
  obtain ⟨index, found⟩ := List.getElem?_of_mem member
  exact List.mem_filterMap.mpr
    ⟨index, RuleTable.candidate_listed (indexed index rule found) covers, found⟩

theorem ofName_name {name : String} (found : Rule.ofName? name = some rule) :
    rule ∈ Rule.standard ∧ rule.name = name := by
  have named := List.find?_some found
  exact ⟨List.mem_of_find?_eq_some found, beq_iff_eq.mp named⟩

theorem standard_name {other : Rule} (first : rule ∈ Rule.standard) (second : other ∈ Rule.standard)
    (same : rule.name = other.name) : rule = other := by
  rcases Rule.standard_cases first with rfl | rfl | rfl <;>
    rcases Rule.standard_cases second with rfl | rfl | rfl <;> first | rfl | exact absurd same (by decide)

theorem chosen_name (builtin : d.Builtin) (standard : rule ∈ Rule.standard) :
    rule ∈ d.rules ↔ rule.name ∈ d.ruleNames := by
  unfold ruleNames
  rw [List.mem_map]
  constructor
  · exact fun member => ⟨rule, member, rfl⟩
  · intro named
    obtain ⟨other, member, same⟩ := named
    rw [← standard_name (builtin other member) standard same]
    exact member

theorem ofNames_made (made : ofNames r names = .ok d) : d.Indexed ∧ d.ruleNames = names := by
  have indexed := empty_indexed r
  suffices all : d.Indexed ∧ d.ruleNames = (empty r).ruleNames ++ names from all
  unfold ofNames at made
  generalize empty r = start at made indexed ⊢
  induction names generalizing start with
  | nil =>
    cases made
    exact ⟨indexed, (List.append_nil _).symm⟩
  | cons name rest ih =>
    rw [List.foldlM_cons] at made
    cases found : Rule.ofName? name with
    | none =>
      rw [found] at made
      cases made
    | some rule =>
      rw [found] at made
      obtain ⟨after, same⟩ := ih (start.push rule) made (push_indexed indexed rule)
      refine ⟨after, same.trans ?_⟩
      simp [ruleNames, push, (ofName_name found).2]

end Desugarer

-- The built-in rule for a node, by its kind and that of its target.
def Rule.for? (n : Node) : Option Rule :=
  if n.kind = "For" then some forLoop
  else if n.kind = "Assert" then some assertion
  else if n.kind = "AugAssign" ∧ (n.nodeAt? "target").any (fun t => t.kind == "Name") then some augAssign
  else none

namespace Rule

variable {rule : Rule} {n m : Node}

theorem for_cases (found : Rule.for? n = some rule) :
    (rule = forLoop ∧ n.kind = "For") ∨ (rule = assertion ∧ n.kind = "Assert") ∨
      (rule = augAssign ∧ n.kind = "AugAssign" ∧ ∃ t, n.nodeAt? "target" = some t ∧ t.kind = "Name") := by
  unfold Rule.for? at found
  split at found
  next kind => exact .inl ⟨(Option.some.inj found).symm, kind⟩
  split at found
  next kind => exact .inr (.inl ⟨(Option.some.inj found).symm, kind⟩)
  split at found
  next both =>
    obtain ⟨kind, named⟩ := both
    rw [Option.any_eq_true] at named
    obtain ⟨t, target, isName⟩ := named
    exact .inr (.inr ⟨(Option.some.inj found).symm, kind, t, target, beq_iff_eq.mp isName⟩)
  · cases found

theorem for_alike (alike : n.Alike m) : Rule.for? m = Rule.for? n := by
  have target : ∀ k : Node, (k.nodeAt? "target").any (fun t => t.kind == "Name") =
      (k.childSchema? "target").any fun schema => schema.kind == "Name" := by
    intro k
    unfold Node.childSchema?
    cases k.nodeAt? "target" <;> rfl
  unfold Rule.for?
  rw [target, target, alike.children, Node.kind, Node.kind, alike.schema]

end Rule

namespace Desugarer

variable {d : Desugarer} {rule : Rule} {n : Node}

theorem for_standard (found : Rule.for? n = some rule) : rule ∈ Rule.standard := by
  unfold Rule.for? at found
  split at found
  · cases found
    simp [Rule.standard]
  split at found
  · cases found
    simp [Rule.standard]
  split at found
  · cases found
    simp [Rule.standard]
  · cases found

theorem for_accepts (typed : n.WellTyped coreRegistry) (found : Rule.for? n = some rule) :
    rule.accepts n = true ∧ ∀ kind, rule.matcher.kind? = some kind → n.isA kind = true := by
  have isKind : ∀ {kind : String}, kind ∈ "Name" :: Core.replaced → n.kind = kind → n.isA kind = true :=
    fun leafKind => (core_isA leafKind typed).mpr
  unfold Rule.for? at found
  unfold Rule.accepts
  split at found
  next kind =>
    cases found
    have isA := isKind (by simp [Core.replaced]) kind
    rw [Rule.forLoop_test]
    exact ⟨isA, fun _ same => by cases same; exact isA⟩
  split at found
  next kind =>
    cases found
    have isA := isKind (by simp [Core.replaced]) kind
    rw [Rule.assertion_test]
    exact ⟨isA, fun _ same => by cases same; exact isA⟩
  split at found
  next both =>
    cases found
    obtain ⟨kind, named⟩ := both
    rw [Option.any_eq_true] at named
    obtain ⟨t, target, isName⟩ := named
    have isA := isKind (by simp [Core.replaced]) kind
    have targetA := (core_isA (by simp) (Node.child_typed typed (Node.nodeAt_child target))).mpr
      (beq_iff_eq.mp isName)
    rw [Rule.augAssign_test, Node.childSchema?, target]
    refine ⟨?_, fun _ same => by cases same; exact isA⟩
    rw [isA]
    exact targetA
  · cases found

theorem findMatch_exact (builtin : d.Builtin) (indexed : d.Indexed) (typed : n.WellTyped coreRegistry) :
    d.findMatch? n = .ok ((Rule.for? n).filter fun rule => d.ruleNames.contains rule.name) := by
  have only : ∀ rule, d.findMatch? n = .ok (some rule) → Rule.for? n = some rule := by
    intro rule found
    rcases findMatch_rule builtin typed found with
      ⟨rfl, kind⟩ | ⟨rfl, kind⟩ | ⟨rfl, kind, t, target, isName⟩ <;> unfold Rule.for?
    · rw [if_pos kind]
    · rw [kind]
      rfl
    · rw [kind, target]
      simp [isName]
  have found := findMatch_find builtin n
  rw [found]
  cases choice : (d.candidates n).find? fun rule => rule.accepts n with
  | some rule =>
    have member := candidate_member (List.mem_of_find?_eq_some choice)
    rw [only rule (by rw [found, choice]), Option.filter_some, List.contains_iff_mem.mpr, if_pos rfl]
    exact List.mem_map.mpr ⟨rule, member, rfl⟩
  | none =>
    cases same : Rule.for? n with
    | none => rfl
    | some rule =>
      obtain ⟨accepted, keyed⟩ := for_accepts typed same
      have absent : rule.name ∉ d.ruleNames := by
        intro named
        have candidate := indexed_candidate indexed
          ((chosen_name builtin (for_standard same)).mpr named) keyed
        rw [List.find?_eq_none] at choice
        exact choice rule candidate accepted
      rw [Option.filter_some, if_neg (by simpa using absent)]

end Desugarer

end TreeLowering
