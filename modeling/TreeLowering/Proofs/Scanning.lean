import TreeLowering.Proofs.Dispatch
import Mathlib.Data.List.Sort

namespace TreeLowering

theorem Matcher.keyed_elsewhere {m : Matcher} {kind : String} {n : Node} (keyed : m.kind? = some kind)
    (apart : kind ∉ n.schema.chain.map Schema.kind) : m.testNode n = .ok false := by
  have other : n.isA kind = false := by
    refine List.any_eq_false.mpr fun s member => ?_
    rw [beq_iff_eq]
    exact fun same => apart (List.mem_map.mpr ⟨s, member, same⟩)
  cases m with
  | kind k attrs =>
    cases keyed
    change (if n.isA kind then Matcher.testAttrs attrs n else .ok false) = _
    rw [other]
    rfl
  | _ => cases keyed

-- What comes of trying rules one after the other: the first one that accepts the node, or the error of the first
-- one that fails, before which all others have refused it; or no rule, when all of them refuse it.
inductive Rule.Decide (n : Node) (rules : List Rule) : Except MatchError (Option Rule) → Prop where
  | accepted {rule : Rule} {before after : List Rule} (split : rules = before ++ rule :: after)
      (refused : ∀ other ∈ before, other.matcher.testNode n = .ok false)
      (accepts : rule.matcher.testNode n = .ok true) : Decide n rules (.ok (some rule))
  | failed {rule : Rule} {e : MatchError} {before after : List Rule} (split : rules = before ++ rule :: after)
      (refused : ∀ other ∈ before, other.matcher.testNode n = .ok false)
      (fails : rule.matcher.testNode n = .error e) : Decide n rules (.error e)
  | none (refused : ∀ rule ∈ rules, rule.matcher.testNode n = .ok false) : Decide n rules (.ok none)

def Rule.ends (n : Node) (rule : Rule) : Bool :=
  match rule.matcher.testNode n with
  | .ok false => false
  | _ => true

theorem Rule.ends_false {n : Node} {rule : Rule} : rule.ends n = false ↔ rule.matcher.testNode n = .ok false := by
  unfold ends
  split <;> simp_all

namespace Desugarer

variable {n : Node} {rule : Rule} {rules : List Rule}

theorem firstMatch_cons (n : Node) (rule : Rule) (rest : List Rule) :
    firstMatch? n (rule :: rest) = if rule.ends n then (rule.matcher.testNode n).map fun _ => some rule
      else firstMatch? n rest := by
  rw [firstMatch?]
  unfold Rule.ends
  cases rule.matcher.testNode n with
  | error e => rfl
  | ok accepted => cases accepted <;> rfl

theorem firstMatch_ends (n : Node) (rules : List Rule) : firstMatch? n rules =
    match rules.find? (Rule.ends n) with
    | some rule => (rule.matcher.testNode n).map fun _ => some rule
    | none => .ok none := by
  induction rules with
  | nil => rfl
  | cons rule rest ih =>
    rw [firstMatch_cons, List.find?_cons]
    cases rule.ends n with
    | true => rfl
    | false => exact ih

theorem firstMatch_decides (n : Node) (rules : List Rule) : Rule.Decide n rules (firstMatch? n rules) := by
  rw [firstMatch_ends]
  cases found : rules.find? (Rule.ends n) with
  | none =>
    rw [List.find?_eq_none] at found
    exact .none fun rule member => Rule.ends_false.mp (Bool.eq_false_iff.mpr (found rule member))
  | some rule =>
    obtain ⟨last, before, after, split, others⟩ := List.find?_eq_some_iff_append.mp found
    have refused : ∀ other ∈ before, other.matcher.testNode n = .ok false := fun other member =>
      Rule.ends_false.mp (by simpa using others other member)
    unfold Rule.ends at last
    change Rule.Decide n rules ((rule.matcher.testNode n).map fun _ => some rule)
    cases tested : rule.matcher.testNode n with
    | error e => exact .failed split refused tested
    | ok accepted =>
      rw [tested] at last
      cases accepted with
      | false => cases last
      | true => exact .accepted split refused tested

end Desugarer

-- Looking at some positions in order finds what looking at all does, when they are those that matter. A position
-- may stand among them more than once.
theorem find_positions {α : Type} {xs : List α} {places : List Nat} {p : α → Bool}
    (ordered : places.Pairwise (· ≤ ·))
    (covers : ∀ (place : Nat) x, xs[place]? = some x → p x = true → place ∈ places) :
    (places.filterMap (xs[·]?)).find? p = xs.find? p := by
  cases found : xs.find? p with
  | none =>
    rw [List.find?_eq_none] at found ⊢
    intro x member
    obtain ⟨place, -, here⟩ := List.mem_filterMap.mp member
    exact found x (List.mem_of_getElem? here)
  | some x =>
    obtain ⟨holds, place, bound, rfl, earlier⟩ := List.find?_eq_some_iff_getElem.mp found
    obtain ⟨before, after, rfl, first⟩ := List.eq_append_cons_of_mem
      (covers place _ (List.getElem?_eq_getElem bound) holds)
    have none : (before.filterMap (xs[·]?)).find? p = none := by
      refine List.find?_eq_none.mpr fun y member => ?_
      obtain ⟨other, inside, there⟩ := List.mem_filterMap.mp member
      have lower : other ≤ place :=
        (List.pairwise_append.mp ordered).2.2 other inside place (List.mem_cons_self ..)
      have apart : other ≠ place := fun same => first (same ▸ inside)
      obtain ⟨_, rfl⟩ := List.getElem?_eq_some_iff.mp there
      simpa using earlier other (by omega)
    rw [List.filterMap_append, List.find?_append, none, Option.none_or,
      List.filterMap_cons_some (List.getElem?_eq_getElem bound), List.find?_cons, holds]

namespace RuleTable

-- A position that stands in the table under a key, or among those without one.
inductive Lists (t : RuleTable) (place : Nat) : Option String → Prop where
  | keyed {kind : String} {places : List Nat} (entry : (kind, places) ∈ t.byKind) (listed : place ∈ places) :
      Lists t place (some kind)
  | unkeyed (listed : place ∈ t.unkeyed) : Lists t place none

theorem lists_under {t : RuleTable} {kind : String} {place : Nat} (listed : place ∈ t.under kind) :
    t.Lists place (some kind) := by
  unfold under Keyed.lookup? at listed
  cases found : t.byKind.find? fun entry => entry.1 == kind with
  | none =>
    rw [found] at listed
    cases listed
  | some entry =>
    rw [found] at listed
    have named := List.find?_some found
    obtain rfl : entry.1 = kind := beq_iff_eq.mp named
    exact .keyed (List.mem_of_find?_eq_some found) listed

theorem lists_add {t : RuleTable} {key other : Option String} {index place : Nat}
    (lists : (t.add key index).Lists place other) : t.Lists place other ∨ other = key ∧ place = index := by
  cases key with
  | none =>
    cases lists with
    | keyed entry listed => exact .inl (.keyed entry listed)
    | unkeyed listed =>
      rcases List.mem_append.mp listed with before | new
      · exact .inl (.unkeyed before)
      · exact .inr ⟨rfl, List.mem_singleton.mp new⟩
  | some kind =>
    cases lists with
    | keyed entry listed =>
      rcases Keyed.mem_insert entry with same | before
      · cases same
        rcases List.mem_append.mp listed with before | new
        · exact .inl (lists_under before)
        · exact .inr ⟨rfl, List.mem_singleton.mp new⟩
      · exact .inl (.keyed before listed)
    | unkeyed listed => exact .inl (.unkeyed listed)

theorem candidates_ordered (t : RuleTable) (schema : Schema) : (t.candidates schema).Pairwise (· ≤ ·) :=
  List.pairwise_mergeSort' (· ≤ ·) _

end RuleTable

namespace Desugarer

variable {d : Desugarer} {n : Node}

-- Every position in the table is that of a rule, which is keyed as it is listed.
def Placed (d : Desugarer) : Prop :=
  ∀ (place : Nat) key, d.table.Lists place key →
    ∃ rule, d.rules[place]? = some rule ∧ rule.matcher.kind? = key

theorem empty_placed (r : Registry) : (empty r).Placed := by
  intro place key lists
  cases lists with
  | keyed entry listed => cases entry
  | unkeyed listed => cases listed

theorem push_placed (placed : d.Placed) (rule : Rule) : (d.push rule).Placed := by
  intro place key lists
  change ∃ other, (d.rules ++ [rule])[place]? = some other ∧ other.matcher.kind? = key
  rcases RuleTable.lists_add lists with before | ⟨rfl, rfl⟩
  · obtain ⟨other, found, keyed⟩ := placed place key before
    obtain ⟨bound, -⟩ := List.getElem?_eq_some_iff.mp found
    exact ⟨other, (List.getElem?_append_left bound).trans found, keyed⟩
  · exact ⟨rule, List.getElem?_concat_length, rfl⟩

theorem findMatch_firstMatch (indexed : d.Indexed) (n : Node) : d.findMatch? n = firstMatch? n d.rules := by
  unfold findMatch?
  rw [firstMatch_ends, firstMatch_ends, candidates, find_positions (d.table.candidates_ordered n.schema)]
  intro place rule here ends
  refine RuleTable.candidate_listed (indexed place rule here) fun kind keyed => ?_
  by_contra other
  have apart : kind ∉ n.schema.chain.map Schema.kind := by
    intro inside
    obtain ⟨s, member, same⟩ := List.mem_map.mp inside
    exact other (List.any_eq_true.mpr ⟨s, member, beq_iff_eq.mpr same⟩)
  rw [Rule.ends_false.mpr (Matcher.keyed_elsewhere keyed apart)] at ends
  cases ends

inductive Registration where
  | push (rule : Rule)
  | extend (rules : List Rule)

def Registration.rules : Registration → List Rule
  | push rule => [rule]
  | extend rules => rules

def register (d : Desugarer) : Registration → Desugarer
  | .push rule => d.push rule
  | .extend rules => d.extend rules

def registerAll (d : Desugarer) (calls : List Registration) : Desugarer := calls.foldl register d

theorem extend_kept (indexed : d.Indexed) (placed : d.Placed) (rules : List Rule) :
    (d.extend rules).Indexed ∧ (d.extend rules).Placed ∧ (d.extend rules).rules = d.rules ++ rules := by
  induction rules generalizing d with
  | nil => exact ⟨indexed, placed, (List.append_nil _).symm⟩
  | cons rule rest ih =>
    obtain ⟨stillIndexed, stillPlaced, same⟩ := ih (push_indexed indexed rule) (push_placed placed rule)
    exact ⟨stillIndexed, stillPlaced, same.trans (by simp [push])⟩

theorem register_kept (indexed : d.Indexed) (placed : d.Placed) (call : Registration) :
    (d.register call).Indexed ∧ (d.register call).Placed ∧ (d.register call).rules = d.rules ++ call.rules := by
  cases call with
  | push rule => exact ⟨push_indexed indexed rule, push_placed placed rule, rfl⟩
  | extend rules => exact extend_kept indexed placed rules

theorem registerAll_kept (indexed : d.Indexed) (placed : d.Placed) (calls : List Registration) :
    (d.registerAll calls).Indexed ∧ (d.registerAll calls).Placed ∧
      (d.registerAll calls).rules = d.rules ++ calls.flatMap Registration.rules := by
  induction calls generalizing d with
  | nil => exact ⟨indexed, placed, (List.append_nil _).symm⟩
  | cons call rest ih =>
    obtain ⟨nowIndexed, nowPlaced, now⟩ := register_kept indexed placed call
    obtain ⟨stillIndexed, stillPlaced, same⟩ := ih nowIndexed nowPlaced
    refine ⟨stillIndexed, stillPlaced, ?_⟩
    change ((d.register call).registerAll rest).rules = _
    rw [same, now, List.flatMap_cons, List.append_assoc]

-- Whatever rules were added, in whatever calls: the choice for a node is that of trying them all in the order in
-- which they were added, a rule keyed on a kind that the node does not have refuses it, and the table holds
-- positions of rules only.
theorem findMatch_decides (r : Registry) (calls : List Registration) (n : Node) :
    Rule.Decide n (calls.flatMap Registration.rules) (((empty r).registerAll calls).findMatch? n) ∧
    ((empty r).registerAll calls).findMatch? n = firstMatch? n (calls.flatMap Registration.rules) ∧
    (∀ rule ∈ calls.flatMap Registration.rules, ∀ kind, rule.matcher.kind? = some kind →
      kind ∉ n.schema.chain.map Schema.kind → rule.matcher.testNode n = .ok false) ∧
    ((empty r).registerAll calls).Placed := by
  obtain ⟨indexed, placed, added⟩ := registerAll_kept (empty_indexed r) (empty_placed r) calls
  have same : ((empty r).registerAll calls).findMatch? n = firstMatch? n (calls.flatMap Registration.rules) := by
    rw [findMatch_firstMatch indexed, added]
    rfl
  refine ⟨?_, same, fun rule _ kind keyed apart => Matcher.keyed_elsewhere keyed apart, placed⟩
  rw [same]
  exact firstMatch_decides n _

end Desugarer

end TreeLowering
